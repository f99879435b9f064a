import TreeAxes.Proofs.NodeSet.Alike
import TreeAxes.Proofs.Step.Evaluation

/-!
# Narrowing alike sets

A filter asks of a candidate what it names; a position also asks what it remembers, and where it
stands among the others. So alike candidates are narrowed alike, whichever copies the sets are
made of: `applyPredicates_alike`.
-/

namespace TreeAxes

/-! ## Positions -/

namespace Position

variable {n : Nat} {xs ys : List NodeRef} {counts counts' : Counts}

theorem perm_context_of_trace {a b : NodeRef} (h : a.trace true = b.trace true) :
    a.context.Perm b.context := by
  have hcontext : (a.context : Multiset ContextNode) = b.context := (Prod.ext_iff.mp h).2
  exact Multiset.coe_eq_coe.mp hcontext

theorem perm_anchorsOf {a b : NodeRef} (h : a.context.Perm b.context) :
    (anchorsOf a).Perm (anchorsOf b) := by
  rw [anchorsOf, anchorsOf, h.isEmpty_eq]
  split
  · exact .refl _
  · exact h.map some

/-- Counting does not depend on the order of the anchors. -/
theorem meet_congr {anchors anchors' : List (Option ContextNode)} (hperm : anchors.Perm anchors')
    (hcounts : ∀ anchor, counts.getD anchor 0 = counts'.getD anchor 0) :
    (meet n counts anchors).1 = (meet n counts' anchors').1 ∧
      ∀ anchor, (meet n counts anchors).2.getD anchor 0 =
        (meet n counts' anchors').2.getD anchor 0 := by
  refine ⟨?_, fun anchor => ?_⟩
  · rw [Bool.eq_iff_iff, meet_fst_iff, meet_fst_iff]
    refine exists_congr fun anchor => ?_
    rw [hperm.mem_iff, hcounts, hperm.count_eq]
  · rw [getD_meet, getD_meet, hcounts, hperm.count_eq]

theorem map_trace_selectFrom
    (h : xs.map (NodeRef.trace true) = ys.map (NodeRef.trace true))
    (hcounts : ∀ anchor, counts.getD anchor 0 = counts'.getD anchor 0) :
    (selectFrom n counts xs).map (NodeRef.trace true) =
      (selectFrom n counts' ys).map (NodeRef.trace true) := by
  induction xs generalizing ys counts counts' with
  | nil =>
    obtain rfl : ys = [] := List.map_eq_nil_iff.mp h.symm
    rfl
  | cons a xs ih =>
    obtain ⟨b, ys, rfl, hab, hxs⟩ := List.map_eq_cons_iff.mp h.symm
    obtain ⟨hfound, hlater⟩ := @meet_congr n counts counts' _ _
      (perm_anchorsOf (perm_context_of_trace hab.symm)) hcounts
    have hrest := ih hxs.symm hlater
    rw [selectFrom, selectFrom]
    simp only [← hfound]
    split
    · rw [List.map_cons, List.map_cons, hab, hrest]
    · exact hrest

theorem map_trace_select (axis : Axis) (n : Nat)
    (h : xs.map (NodeRef.trace true) = ys.map (NodeRef.trace true)) :
    (select axis n xs).map (NodeRef.trace true) = (select axis n ys).map (NodeRef.trace true) := by
  rw [select, select]
  split
  · rw [List.map_reverse, List.map_reverse]
    refine congrArg List.reverse (map_trace_selectFrom ?_ fun _ => rfl)
    rw [List.map_reverse, List.map_reverse, h]
  · exact map_trace_selectFrom h fun _ => rfl

theorem selectFrom_sublist (n : Nat) (counts : Counts) (nodes : List NodeRef) :
    (selectFrom n counts nodes).Sublist nodes := by
  induction nodes generalizing counts with
  | nil => exact .slnil
  | cons node nodes ih =>
    rw [selectFrom]
    simp only
    split
    · exact (ih _).cons_cons node
    · exact (ih _).cons node

theorem select_sublist (axis : Axis) (n : Nat) (nodes : List NodeRef) :
    (select axis n nodes).Sublist nodes := by
  rw [select]
  split
  · rw [← List.reverse_sublist, List.reverse_reverse]
    exact selectFrom_sublist _ _ _
  · exact selectFrom_sublist _ _ _

end Position

/-! ## Filters -/

namespace Predicate

variable {test test' : NodeRef → Except StepError Bool} {counted named : Bool}
  {xs ys kept : List NodeRef}

/-- A filter asks what a node names and what the store holds. A position counts the context nodes
of candidates; these depend on the input alone if the test has a name. -/
def Regular (named : Bool) : Predicate → Prop
  | position _ => named
  | filter _ test => ∀ s t : Store, s.documents = t.documents →
      ∀ a b : NodeRef, a.key = b.key → test s a = test t b
  | inInput _ => False

/-- A filter that passes nodes of one list passes the same nodes of a list alike. -/
theorem passing_alike (htest : ∀ a b : NodeRef, a.key = b.key → test a = test' b)
    (h : xs.map (NodeRef.trace counted) = ys.map (NodeRef.trace counted))
    (hok : passing test xs = .ok kept) : ∃ kept', passing test' ys = .ok kept' ∧
      kept.map (NodeRef.trace counted) = kept'.map (NodeRef.trace counted) := by
  induction xs generalizing ys kept with
  | nil =>
    obtain rfl : ys = [] := List.map_eq_nil_iff.mp h.symm
    cases hok
    exact ⟨[], rfl, rfl⟩
  | cons a xs ih =>
    obtain ⟨b, ys, rfl, hab, hxs⟩ := List.map_eq_cons_iff.mp h.symm
    have hkey : a.key = b.key := (Prod.ext_iff.mp hab).1.symm
    obtain ⟨passes, rest, hpasses, hrest, rfl⟩ := exists_of_passing_cons hok
    obtain ⟨rest', hrest', hkept⟩ := ih hxs.symm hrest
    rw [passing_cons, ← htest a b hkey, hpasses, hrest']
    cases passes with
    | false => exact ⟨rest', rfl, hkept⟩
    | true =>
      refine ⟨b :: rest', rfl, ?_⟩
      rw [if_pos rfl, List.map_cons, List.map_cons, hab, hkept]

/-- A regular predicate narrows alike sets to alike sets. -/
theorem Regular.narrow {p : Predicate} (hp : p.Regular named) (hcounted : p.needsContext → counted)
    {store other : Store} (hdocuments : store.documents = other.documents)
    {D : DocumentId → Option Document} {s t s' : NodeSet} (h : s.Alike counted D t)
    {input input' : Option NodeSet} {axis : Axis} (hok : p.narrow store input s axis = .ok s') :
    ∃ t', p.narrow other input' t axis = .ok t' ∧ s'.Alike counted D t' := by
  cases p with
  | position n =>
    obtain rfl : counted = true := hcounted rfl
    cases hok
    refine ⟨_, rfl, .ofList (Position.map_trace_select axis n (h.map_trace_toDocumentOrder rfl)) ?_
      (fun _ node hnode => ?_) fun _ node hnode => ?_⟩
    · refine ((Position.select_sublist axis n _).map _).nodup ?_
      exact ((NodeSet.perm_toDocumentOrder h.nodup).map _).nodup_iff.mpr h.nodup
    · exact (h.left rfl).of_mem_nodes ((NodeSet.perm_toDocumentOrder h.nodup).subset
        ((Position.select_sublist axis n _).subset hnode))
    · exact (h.right rfl).of_mem_nodes ((NodeSet.perm_toDocumentOrder h.symm.nodup).subset
        ((Position.select_sublist axis n _).subset hnode))
  | filter label test =>
    have hs := NodeSet.perm_nodes_sort h.nodup
    have ht := NodeSet.perm_nodes_sort h.symm.nodup
    obtain ⟨kept, hkept, rfl⟩ := exists_of_narrow_filter hok
    obtain ⟨kept', hkept', hsame⟩ :=
      passing_alike (hp store other hdocuments) h.map_trace_sort hkept
    refine ⟨.ofList kept', by rw [Predicate.narrow, hkept']; rfl,
      .ofList hsame ?_ (fun hc node hnode => ?_) fun hc node hnode => ?_⟩
    · exact ((passing_sublist hkept).map _).nodup ((hs.map _).nodup_iff.mpr h.nodup)
    · exact (h.left hc).of_mem_nodes (hs.subset ((passing_sublist hkept).subset hnode))
    · exact (h.right hc).of_mem_nodes (ht.subset ((passing_sublist hkept').subset hnode))
  | inInput keepMembers => exact hp.elim

end Predicate

namespace Plan

variable {plan : Plan} {counted named : Bool} {store other : Store} {input input' s t s' : NodeSet}
  {D : DocumentId → Option Document}

/-- The step has positions among its predicates. -/
def counts (plan : Plan) : Bool := plan.predicates.any Predicate.needsContext

/-- All predicates of the step are regular for its test. -/
def Regular (plan : Plan) : Prop := ∀ p ∈ plan.predicates, p.Regular plan.test.name.isSome

theorem regular_of_plain (hplain : plan.predicates = []) : plan.Regular := by
  rw [Regular, hplain]
  exact nofun

theorem narrowAll_alike {predicates : List Predicate} (hregular : ∀ p ∈ predicates, p.Regular named)
    (hcounted : ∀ p ∈ predicates, p.needsContext → counted)
    (hdocuments : store.documents = other.documents) (h : s.Alike counted D t) {axis : Axis}
    (hok : narrowAll axis store input predicates s = .ok s') :
    ∃ t', narrowAll axis other input' predicates t = .ok t' ∧ s'.Alike counted D t' := by
  induction predicates generalizing s t with
  | nil =>
    cases hok
    exact ⟨t, rfl, h⟩
  | cons p ps ih =>
    obtain ⟨hp, hps⟩ := List.forall_mem_cons.mp hregular
    obtain ⟨hpc, hpsc⟩ := List.forall_mem_cons.mp hcounted
    obtain ⟨between, hnarrow, hrest⟩ := exists_of_narrowAll_cons hok
    obtain ⟨between', hnarrow', halike⟩ :=
      @Predicate.Regular.narrow _ _ _ hp hpc _ _ hdocuments _ _ _ _ h _ (some input') _ hnarrow
    rw [narrowAll, hnarrow']
    exact ih hps hpsc halike hrest

/-- Results alike when realised are narrowed to results of the same nodes. -/
theorem applyPredicates_alike (hregular : plan.Regular)
    (hdocuments : store.documents = other.documents) {result result' narrowed : StepResult}
    (h : (result.toNodeSet store.source).Alike plan.counts D (result'.toNodeSet other.source))
    (hok : plan.applyPredicates store input result = .ok narrowed) :
    ∃ narrowed', plan.applyPredicates other input' result' = .ok narrowed' ∧
      ∀ key, key ∈ narrowed.toNodeSet store.source ↔ key ∈ narrowed'.toNodeSet other.source := by
  obtain ⟨hplain, rfl⟩ | ⟨set, hsome, hnarrow, rfl⟩ := applyPredicates_cases hok
  · exact ⟨result', applyPredicates_of_plain hplain _ _ _, fun key => h.mem_iff⟩
  · have hcounted : ∀ p ∈ plan.predicates, p.needsContext → plan.counts := fun p hp hneeds =>
      List.any_eq_true.mpr ⟨p, hp, hneeds⟩
    obtain ⟨set', hnarrow', halike⟩ :=
      @narrowAll_alike _ _ _ _ _ input' _ _ _ _ _ hregular hcounted hdocuments h _ hnarrow
    refine ⟨.nodes set', ?_, fun key => halike.mem_iff⟩
    rw [applyPredicates, if_neg fun hplain => hsome (List.isEmpty_iff.mp hplain), hnarrow']
    rfl

end Plan

end TreeAxes
