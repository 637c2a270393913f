/-
Enriching a JSON file in place.

A file that can be read can be written over, so a run whose output is its input succeeds and puts
the document of the enriched model in the place of the text (`execute_in_place`), unless the device
fails (`execute_in_place_of_fault`). That document is read as the enriched model, whatever the text
before looked like, and enrichment is idempotent, so another run puts there what is there already
and adds no notice.

* `execute_in_place_twice` — the second run leaves every file as the first one left it.
-/
import Mathlib
import ApiSurface.Proofs.CommandLine.Printed
import ApiSurface.Proofs.Model.Confluence

namespace ApiSurface.CommandLine

open FileTree

/-- The numbers that a log sums up: the notices that were added, and the documented nodes. -/
def LogEntry.counts? : LogEntry → Option (Nat × Nat)
  | .summary _ added total => some (added, total)
  | _ => none

/-- What can be read off a log: something of each event, and of the summary after them. -/
theorem filterMap_readingLog {β : Type} {g : LogEntry → Option β} (ignored : g .ignoredDetail = none)
    (f : Format) (s : String) (m : Model) :
    (readingLog f s m).filterMap g = m.traceEnrich.events.filterMap (fun e => g (.enrichment e)) ++
      (g (.summary Pass.deprecation.name (m.enrich.documented - m.documented)
        m.enrich.documented)).toList := by
  have hignored : ∀ n, (List.replicate n LogEntry.ignoredDetail).filterMap g = [] := fun n =>
    List.filterMap_eq_nil_iff.mpr fun e he => by rw [List.eq_of_mem_replicate he, ignored]
  have hsummary : ∀ e : LogEntry, [e].filterMap g = (g e).toList := fun e => by
    rw [List.filterMap_eq_flatMap_toList, List.flatMap_singleton]
  rw [readingLog, enrichmentLog, List.filterMap_append, List.filterMap_append, hignored,
    List.filterMap_map, hsummary]
  rfl

theorem filterMap_counts_readingLog (f : Format) (s : String) (m : Model) :
    (readingLog f s m).filterMap LogEntry.counts? =
      [(m.enrich.documented - m.documented, m.enrich.documented)] := by
  have events : m.traceEnrich.events.filterMap (fun e => LogEntry.counts? (.enrichment e)) = [] :=
    List.filterMap_eq_nil_iff.mpr fun _ _ => rfl
  rw [filterMap_readingLog rfl, events]
  rfl

section Obtained

variable {t : FileTree} {a : EnrichArguments} {f : Format} {s : String} {m : Model}

/-- A run whose output is its input puts the document of the enriched model in the place of the
text. -/
theorem execute_in_place (h : Obtains t a f s m) (output : a.output = some a.input) :
    ∃ l u, t.walk (t.start (.ofText a.input)) (FilePath.ofText a.input).steps = .ok l ∧
      u = t.put l (.text (m.enrich.render f)) ∧ Covers t u ∧
      u.readText a.input = .ok (m.enrich.render f) ∧
      execute treeSystem a t = ({ log := readingLog f s m ++ [.written a.input] }, u) := by
  obtain ⟨hpath, -⟩ := readText_eq_ok.mp h.read
  obtain ⟨l, hwalk, hcovers, hopen, hover⟩ := save_over .reliable h.read (m.enrich.render f)
  have hsave := hover.trans (writeAt_of_taken hpath (hopen rfl) rfl)
  exact ⟨l, _, hwalk, rfl, hcovers _, (save_eq_ok hsave).read, execute_saves h output hsave⟩

/-- If the device fails while the document is written over the text, the text is lost: there are
only the bytes that the device took. -/
theorem execute_in_place_of_fault (d : Device) (h : Obtains t a f s m)
    (output : a.output = some a.input) :
    ∃ l, t.walk (t.start (.ofText a.input)) (FilePath.ofText a.input).steps = .ok l ∧
      ∀ taken e, d.refusal l = none → d.fault l (bytesOf (m.enrich.render f)) = some (taken, e) →
        execute (deviceSystem d) a t =
          ({ log := readingLog f s m, result := .error (.io (.system e)) },
            t.put l (.ofBytes ((bytesOf (m.enrich.render f)).take taken))) := by
  obtain ⟨hpath, -⟩ := readText_eq_ok.mp h.read
  obtain ⟨l, hwalk, -, hopen, hover⟩ := save_over d h.read (m.enrich.render f)
  refine ⟨l, hwalk, fun taken e ready fault => ?_⟩
  have hsave := hover.trans (writeAt_of_fault hpath (hopen ready) fault)
  simp only [execute_of_obtains h, output, hsave]

/-- A full device leaves an empty file in the place of the text. -/
example :
    let e : SystemError := .device 28 "StorageFull" "No space left on device"
    let d : Device := { fault _ bytes := if h : 0 < bytes.length then some (⟨0, h⟩, e) else none }
    let a : EnrichArguments := { input := "m.json", output := some "m.json" }
    let t := FileTree.fresh.put ["work", "m.json"] (.text "\x7b\x7d")
    (execute (deviceSystem d) a t).2.readText "m.json" = .ok "" := by
  cbv

end Obtained

/-- The document that a run put in the place of the text is read as the enriched model. -/
theorem Obtains.again {t u : FileTree} {a : EnrichArguments} {s : String} {m : Model}
    (h : Obtains t a .json s m) (whole : m.IsWhole)
    (read : u.readText a.input = .ok (m.enrich.render .json)) :
    Obtains u a .json (m.enrich.render .json) m.enrich := by
  exact ⟨isPresent_of_readText read, h.format, read, Model.parse_document whole.enrich .json⟩

/-- A JSON file can be enriched in place, and again: the second run leaves every file as it is and
adds no notice to those the first one counted. -/
theorem execute_in_place_twice {t : FileTree} {path s : String} {m : Model} {a : EnrichArguments}
    (input : a.input = path) (output : a.output = some path)
    (format : a.chosenFormat = .ok .json) (read : t.readText path = .ok s)
    (parse : Model.parse .json s = .ok m) (whole : m.IsWhole) :
    (execute treeSystem a t).1.result = .ok () ∧
    (execute treeSystem a (execute treeSystem a t).2).1.result = .ok () ∧
    (execute treeSystem a (execute treeSystem a t).2).2 = (execute treeSystem a t).2 ∧
    ∃ added total,
      (execute treeSystem a t).1.log.filterMap LogEntry.counts? = [(added, total)] ∧
      (execute treeSystem a (execute treeSystem a t).2).1.log.filterMap LogEntry.counts? =
        [(0, total)] := by
  subst input
  have first : Obtains t a .json s m := ⟨isPresent_of_readText read, format, read, parse⟩
  obtain ⟨l, u, hwalk, hu, hcovers, hread, hrun⟩ := execute_in_place first output
  have second := first.again whole hread
  obtain ⟨l', v, hwalk', hv, -, -, hrun'⟩ := execute_in_place second output
  -- The path leads to the same place, where the second run puts what is there already.
  obtain rfl : l = l' := by
    rw [hcovers.start] at hwalk'
    exact Except.ok.inj ((hcovers.walk hwalk).symm.trans hwalk')
  have hsame : v = u := by rw [hv, m.enrich_enrich, hu, put_put]
  rw [hrun, hrun']
  refine ⟨rfl, rfl, hsame, m.enrich.documented - m.documented, m.enrich.documented, ?_, ?_⟩
  · rw [List.filterMap_append, filterMap_counts_readingLog]
    rfl
  · rw [List.filterMap_append, filterMap_counts_readingLog, m.enrich_enrich, Nat.sub_self]
    rfl

/-- A document whose marker has a version that is a number. -/
def lenientDocument : String :=
  "\x7b\"beans\":[\x7b\"name\":\"B\"," ++
    "\"origin\":\x7b\"name\":\"b\",\"deprecated\":\x7b\"since\":2\x7d\x7d\x7d]\x7d"

theorem execute_in_place_twice_lenient :
    let t := FileTree.fresh.put ["work", "m.json"] (.text lenientDocument)
    let a : EnrichArguments :=
      { input := "m.json", output := some "m.json", format := some .json }
    t.readText "m.json" = .ok lenientDocument ∧
      (execute treeSystem a (execute treeSystem a t).2).2 = (execute treeSystem a t).2 := by
  intro t a
  have read : t.readText "m.json" = .ok lenientDocument := by rfl
  have parse : Model.parse .json lenientDocument = .ok
      { beans := [{ name := "B", origin := some ⟨"b", some { since := some "2" }⟩ }] } := by cbv
  have whole : Model.IsWhole
      { beans := [{ name := "B", origin := some ⟨"b", some { since := some "2" }⟩ }] } := by
    simp [Model.IsWhole]
  exact ⟨read,
    (execute_in_place_twice (a := a) rfl rfl rfl read parse whole).2.2.1⟩

end ApiSurface.CommandLine
