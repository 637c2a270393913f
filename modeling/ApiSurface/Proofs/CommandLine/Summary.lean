/-
What a run logs of the enrichment, and its summary.

A run that obtains a model logs what enrichment reports about the nodes, in the order of its visits
(`Model.events_traceEnrich`), and then how many notices it added and how many nodes are documented.
The first number is a difference of two counts that walk through the model container by container;
`Model.documented_enrich_sub` says that it is the number of nodes whose documentation changed, and
`Model.countP_events` that it is the number of notices that were logged.

* `execute_counts_notices` — what the two numbers count, for every model and every run;
* `execute_logs_visits` — which events every run logs, and in which order.
-/
import ApiSurface.Proofs.CommandLine.InPlace
import ApiSurface.Proofs.Model.Trace

namespace ApiSurface.CommandLine

open FileTree

/-- The event of the enrichment that an entry logs. -/
def LogEntry.event? : LogEntry → Option EnrichmentEvent
  | .enrichment event => some event
  | _ => none

theorem filterMap_event_readingLog (f : Format) (s : String) (m : Model) :
    (readingLog f s m).filterMap LogEntry.event? = m.traceEnrich.events := by
  have events : m.traceEnrich.events.filterMap (fun e => LogEntry.event? (.enrichment e)) =
      m.traceEnrich.events := List.filterMap_some
  rw [filterMap_readingLog rfl, events]
  exact List.append_nil _

section Obtained

variable {t : FileTree} {a : EnrichArguments} {f : Format} {s : String} {m : Model}

/-- What becomes of the output is all that a run logs after reading and enriching. -/
theorem filterMap_log_execute {β : Type} {g : LogEntry → Option β}
    (written : ∀ path, g (.written path) = none) (h : Obtains t a f s m) :
    (execute treeSystem a t).1.log.filterMap g = (readingLog f s m).filterMap g := by
  cases output : a.output with
  | none => rw [execute_prints h output]
  | some path =>
    obtain ⟨u, -, hrun⟩ | ⟨e, u, -, hrun⟩ := execute_of_output h output
    · rw [hrun, List.filterMap_append, List.filterMap_cons_none (written path)]
      exact List.append_nil _
    · rw [hrun]

/-- A run that obtains a model sums it up once, whatever becomes of its output. -/
theorem counts_execute (h : Obtains t a f s m) :
    (execute treeSystem a t).1.log.filterMap LogEntry.counts? =
      [(m.enrich.documented - m.documented, m.enrich.documented)] := by
  rw [filterMap_log_execute (fun _ => rfl) h, filterMap_counts_readingLog]

theorem events_execute (h : Obtains t a f s m) :
    (execute treeSystem a t).1.log.filterMap LogEntry.event? = m.traceEnrich.events := by
  rw [filterMap_log_execute (fun _ => rfl) h, filterMap_event_readingLog]

end Obtained

/-- After enrichment those nodes are documented that were documented before or whose origin has a
marker. They are no fewer than before; a run logs as added the number of the nodes whose
documentation changed, which is zero if and only if the model did not change. -/
theorem execute_counts_notices (m : Model) :
    m.enrich.documented =
      {a | ∃ n, m.node? a = some n ∧ ((∃ c ∈ n.comments, deprecatedTag.toList <+: c.toList) ∨
        ∃ k, n.origin.bind (·.deprecated) = some k)}.ncard ∧
    m.documented ≤ m.enrich.documented ∧
    m.enrich.documented - m.documented =
      {a | (m.node? a).map (·.comments) ≠ (m.enrich.node? a).map (·.comments)}.ncard ∧
    (m.enrich.documented - m.documented = 0 ↔ m.enrich = m) ∧
    ∀ {t : FileTree} {a : EnrichArguments} {f : Format} {s : String}, Obtains t a f s m →
      (execute treeSystem a t).1.log.filterMap LogEntry.counts? =
        [(m.enrich.documented - m.documented, m.enrich.documented)] := by
  refine ⟨?_, m.documented_le_enrich, m.documented_enrich_sub,
    m.documented_enrich_sub_eq_zero_iff, counts_execute⟩
  have documented_iff (n : Documented) :
      n.documented = true ↔ ∃ c ∈ n.comments, deprecatedTag.toList <+: c.toList := by
    simp [Documented.documented, isDocumented, isNotice]
  rw [m.documented_enrich_eq_ncard]
  simp only [documented_iff]
  rfl

/-- Enrichment visits every node once, in the order of the places: containers one after another, and
children before their container. Of each node it reports the notice that was added if the
documentation changed, or that the node was documented already if its origin has a marker, and else
nothing. A run logs these events, in these words, and sums up as many added notices. -/
theorem execute_logs_visits (m : Model) :
    m.visits.Pairwise (fun v w => v.1.place < w.1.place) ∧
    (∀ a n, (a, n) ∈ m.visits ↔ m.node? a = some n) ∧
    m.traceEnrich.events = m.visits.filterMap (fun v => v.2.event?) ∧
    (∀ a n n', m.node? a = some n → m.enrich.node? a = some n' →
      (n'.comments ≠ n.comments → ∃ e k, n.origin = some e ∧ e.deprecated = some k ∧
        n'.comments = n.comments ++ [k.notice] ∧
        n.event? = some (.noticeAdded e.name k.notice)) ∧
      (∀ e k, n.origin = some e → e.deprecated = some k →
        (∃ c ∈ n.comments, deprecatedTag.toList <+: c.toList) →
        n'.comments = n.comments ∧ n.event? = some (.alreadyDocumented e.name)) ∧
      (n.origin.bind (·.deprecated) = none → n'.comments = n.comments ∧ n.event? = none)) ∧
    ∀ {t : FileTree} {a : EnrichArguments} {f : Format} {s : String}, Obtains t a f s m →
      (execute treeSystem a t).1.log.filterMap LogEntry.event? = m.traceEnrich.events ∧
      (execute treeSystem a t).1.log.filterMap LogEntry.counts? =
        [(m.traceEnrich.events.countP EnrichmentEvent.isNoticeAdded, m.enrich.documented)] ∧
      ∀ origin notice, (LogEntry.enrichment (.noticeAdded origin notice)).text =
          "appending deprecation notice origin=" ++ origin ++ " notice=" ++ notice ∧
        (LogEntry.enrichment (.alreadyDocumented origin)).text =
          "already documented as deprecated origin=" ++ origin := by
  refine ⟨m.inOrder_visits, fun a n => Model.mem_visits, m.events_traceEnrich, ?_, ?_⟩
  · intro a n n' hn hn'
    obtain rfl : n.enriched = n' := by
      rw [m.node?_enrich, hn] at hn'
      exact Option.some.inj hn'
    refine ⟨fun changed => ?_, fun e k origin marker documented => ?_, fun unmarked => ?_⟩
    · obtain ⟨k, due⟩ : ∃ k, n.Due k := by
        by_contra none
        exact changed (Documented.comments_enriched_of_not_due (not_exists.mp none))
      obtain ⟨e, origin, marker⟩ := Option.bind_eq_some_iff.mp due.1
      exact ⟨e, k, origin, marker, Documented.comments_enriched_of_due due,
        Documented.event?_of_due origin due⟩
    · obtain ⟨c, hc, tagged⟩ := documented
      have hd : n.documented = true := by
        simpa [Documented.documented, isDocumented, isNotice] using ⟨c, hc, tagged⟩
      exact ⟨Documented.comments_enriched_of_not_due fun _ due => due.2 c hc tagged,
        Documented.event?_of_documented origin marker hd⟩
    · refine ⟨Documented.comments_enriched_of_not_due fun k due => ?_,
        Documented.event?_of_no_marker unmarked⟩
      exact absurd (unmarked.symm.trans due.1) (by simp)
  · intro t a f s h
    rw [m.countP_events]
    exact ⟨events_execute h, counts_execute h, fun _ _ => ⟨rfl, rfl⟩⟩

end ApiSurface.CommandLine
