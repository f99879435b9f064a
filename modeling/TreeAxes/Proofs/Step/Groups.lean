import TreeAxes.Proofs.Step.Inputs

/-!
# Nodes by context

The nodes that a step has found fall into groups, one for each context node. A predicate narrows
all groups at once: a filter keeps what passes, and a position keeps, in every group, what stands
at it in some group. Predicates that narrow a set narrow the groups that it splits into, and fail
where these cannot be narrowed: `narrowAll`.
-/

namespace TreeAxes

/-- Either a computation and a possible result agree, or there is neither. -/
inductive Concur {α β ε : Type} (R : α → β → Prop) : Except ε α → Option β → Prop where
  | ok {a : α} {b : β} (h : R a b) : Concur R (.ok a) (some b)
  | error (fault : ε) : Concur R (.error fault) none

namespace Concur

variable {α β γ δ ε : Type} {R : α → β → Prop} {x : Except ε α} {y : Option β}

theorem bind {Q : γ → δ → Prop} (h : Concur R x y) {f : α → Except ε γ} {g : β → Option δ}
    (hnext : ∀ a b, R a b → Concur Q (f a) (g b)) : Concur Q (x >>= f) (y >>= g) := by
  cases h with
  | ok h => exact hnext _ _ h
  | error fault => exact .error fault

theorem exists_error (h : Concur R x none) : ∃ fault, x = .error fault := by
  cases h with
  | error fault => exact ⟨fault, rfl⟩

theorem exists_ok (h : Concur R x y) (hsome : y ≠ none) :
    ∃ a b, x = .ok a ∧ y = some b ∧ R a b := by
  cases h with
  | ok h => exact ⟨_, _, rfl, rfl, h⟩
  | error fault => exact absurd rfl hsome

theorem map {Q : γ → β → Prop} (h : Concur R x y) {f : α → γ} (hnext : ∀ a b, R a b → Q (f a) b) :
    Concur Q (x.map f) y := by
  cases h with
  | ok h => exact .ok (hnext _ _ h)
  | error fault => exact .error fault

end Concur

namespace Predicate

variable {test : NodeRef → Except StepError Bool} {nodes : List NodeRef}

/-- Whether a test passes a node. -/
def accepts (test : NodeRef → Except StepError Bool) (node : NodeRef) : Bool :=
  match test node with
  | .ok passes => passes
  | .error _ => false

/-- Whether a test fails at a node. -/
def fails (test : NodeRef → Except StepError Bool) (node : NodeRef) : Bool :=
  match test node with
  | .ok _ => false
  | .error _ => true

/-- If a test fails nowhere, the nodes that it passes are a matter of filtering. -/
theorem passing_of_not_fails (h : ∀ node ∈ nodes, ¬fails test node) :
    passing test nodes = .ok (nodes.filter (accepts test)) := by
  induction nodes with
  | nil => rfl
  | cons node nodes ih =>
    obtain ⟨hnode, hnodes⟩ := List.forall_mem_cons.mp h
    rw [fails] at hnode
    rw [passing_cons, ih hnodes, List.filter_cons, accepts]
    cases hpasses : test node with
    | error fault =>
      rw [hpasses] at hnode
      exact absurd rfl hnode
    | ok passes => cases passes <;> rfl

/-- If a test fails at some node, no nodes pass. -/
theorem passing_of_fails (h : ∃ node ∈ nodes, fails test node) :
    ∃ fault, passing test nodes = .error fault := by
  induction nodes with
  | nil =>
    obtain ⟨node, hnode, -⟩ := h
    cases hnode
  | cons first nodes ih =>
    rw [passing_cons]
    cases hfirst : test first with
    | error fault => exact ⟨fault, rfl⟩
    | ok passes =>
      have hlater : ∃ node ∈ nodes, fails test node := by
        obtain ⟨node, hnode, hfails⟩ := h
        obtain rfl | hnode := List.mem_cons.mp hnode
        · rw [fails, hfirst] at hfails
          cases hfails
        · exact ⟨node, hnode, hfails⟩
      obtain ⟨fault, hfault⟩ := ih hlater
      refine ⟨fault, ?_⟩
      rw [hfault]
      cases passes <;> rfl

end Predicate

/-- The nodes of each context node, in document order. -/
abbrev Groups := List (ContextNode × List NodeRef)

namespace Groups

variable {groups : Groups} {key : DocumentId × Nat} {axis : Axis} {n : Nat} {node : NodeRef}

/-- Some group has a node. -/
def Names (groups : Groups) (key : DocumentId × Nat) : Prop :=
  ∃ group ∈ groups, ∃ node ∈ group.2, node.key = key

/-- What passes, in every group. -/
def restrict (groups : Groups) (passes : NodeRef → Bool) : Groups :=
  groups.map fun group => (group.1, group.2.filter passes)

/-- Whether a node stands at a position in some group. -/
def picks (groups : Groups) (axis : Axis) (n : Nat) (node : NodeRef) : Bool :=
  groups.any fun group =>
    (Position.pick? axis.isReverse n group.2).any (·.key = node.key)

/-- Narrows all groups by a predicate, unless a filter fails at some node. Whether a node is in the
input is no matter of groups. -/
def narrow? (groups : Groups) (axis : Axis) (store : Store) : Predicate → Option Groups
  | .position n => some (groups.restrict (groups.picks axis n))
  | .filter _ test =>
    if groups.any (·.2.any (Predicate.fails (test store))) then none
    else some (groups.restrict (Predicate.accepts (test store)))
  | .inInput _ => some groups

/-- Narrows all groups by predicates, one after the other. -/
def narrowAll? (groups : Groups) (axis : Axis) (store : Store) : List Predicate → Option Groups
  | [] => some groups
  | p :: ps => do (← groups.narrow? axis store p).narrowAll? axis store ps

theorem picks_iff :
    groups.picks axis n node ↔
      ∃ group ∈ groups, ∃ x ∈ Position.pick? axis.isReverse n group.2, x.key = node.key := by
  simp only [picks, List.any_eq_true, Option.any_eq_true, Option.mem_def, decide_eq_true_eq]

theorem picks_congr {other : NodeRef} (h : node.key = other.key) :
    groups.picks axis n node = groups.picks axis n other := by
  simp only [picks, h]

theorem names_restrict {passes : NodeRef → Bool} :
    (groups.restrict passes).Names key ↔
      ∃ group ∈ groups, ∃ node ∈ group.2, passes node ∧ node.key = key := by
  simp only [Names, restrict, List.mem_map, exists_exists_and_eq_and, List.mem_filter, and_assoc]

end Groups

/-! ## Positions -/

namespace Position

variable {reverse : Bool} {n : Nat} {xs ys : List NodeRef} {node : NodeRef}

theorem mem_of_mem_pick? (h : node ∈ pick? reverse n xs) : node ∈ xs := by
  rw [pick?] at h
  split at h
  · cases h
  · split at h
    · exact List.mem_reverse.mp (List.mem_of_getElem? h)
    · exact List.mem_of_getElem? h

/-- What is picked depends on the keys only. -/
theorem map_key_pick? (h : xs.map (·.key) = ys.map (·.key)) :
    (pick? reverse n xs).map (·.key) = (pick? reverse n ys).map (·.key) := by
  rw [pick?, pick?]
  split
  · rfl
  · split
    · rw [← List.getElem?_map, ← List.getElem?_map, List.map_reverse, List.map_reverse, h]
    · rw [← List.getElem?_map, ← List.getElem?_map, h]

theorem anchorsOf_eq {c : ContextNode} (h : c ∈ node.context) :
    anchorsOf node = node.context.map some := by
  rw [anchorsOf, if_neg]
  rw [List.isEmpty_iff]
  exact List.ne_nil_of_mem h

/-- If no node repeats a context node, the nodes counted for one are those that remember it. -/
theorem group_eq_filter (h : ∀ node ∈ xs, node.context.Nodup) (c : ContextNode) :
    group xs (some c) = xs.filter (c ∈ ·.context) := by
  induction xs with
  | nil => rfl
  | cons node xs ih =>
    obtain ⟨hnode, hxs⟩ := List.forall_mem_cons.mp h
    have hcount : (anchorsOf node).count (some c) = if c ∈ node.context then 1 else 0 := by
      rw [anchorsOf]
      split
      · next hempty =>
        rw [List.isEmpty_iff.mp hempty]
        rfl
      · rw [List.count_map_of_injective _ _ (Option.some_injective _)]
        split
        · next hmem => exact List.count_eq_one_of_mem hnode hmem
        · next hmem => exact List.count_eq_zero_of_not_mem hmem
    rw [group_cons, ih hxs, hcount]
    by_cases hmem : c ∈ node.context
    · rw [if_pos hmem, List.filter_cons_of_pos (by simpa using hmem)]
      rfl
    · rw [if_neg hmem, List.filter_cons_of_neg (by simpa using hmem)]
      rfl

end Position

/-! ## Sets that split into groups -/

theorem NodeRef.map_key_filter {xs ys : List NodeRef} (h : xs.map key = ys.map key)
    {passes : NodeRef → Bool} (hkey : ∀ a b : NodeRef, a.key = b.key → passes a = passes b) :
    (xs.filter passes).map key = (ys.filter passes).map key := by
  induction xs generalizing ys with
  | nil =>
    obtain rfl : ys = [] := List.map_eq_nil_iff.mp h.symm
    rfl
  | cons a xs ih =>
    obtain ⟨b, ys, rfl, hab, hxs⟩ := List.map_eq_cons_iff.mp h.symm
    rw [List.filter_cons, List.filter_cons, hkey a b hab.symm]
    split
    · rw [List.map_cons, List.map_cons, hab, ih hxs.symm]
    · exact ih hxs.symm

namespace NodeSet

variable {s : NodeSet} {counted : Bool} {D : DocumentId → Option Document} {groups : Groups}
  {kept : List NodeRef} {passes : NodeRef → Bool} {axis : Axis} {n : Nat}

/-- A set without copies whose nodes are those of some groups. Where positions count, each group
has, in document order, the nodes that remember its context node. -/
structure Splits (counted : Bool) (D : DocumentId → Option Document) (s : NodeSet)
    (groups : Groups) : Prop where
  nodup : (s.nodes.map (·.key)).Nodup
  mem_iff : ∀ key, key ∈ s ↔ groups.Names key
  lies : counted → s.LiesIn D
  once : counted → s.RecallsOnce
  known : counted → ∀ node ∈ s.nodes, ∀ c ∈ node.context, ∃ group ∈ groups, group.1 = c
  keys_eq : counted → ∀ group ∈ groups,
    (s.toDocumentOrder.filter (group.1 ∈ ·.context)).map (·.key) = group.2.map (·.key)

theorem toDocumentOrder_ofList (hlies : s.LiesIn D) (hnodup : (s.nodes.map (·.key)).Nodup)
    (hkept : kept.Perm (s.nodes.filter passes)) :
    (ofList kept).toDocumentOrder = s.toDocumentOrder.filter passes := by
  have hkeys : (kept.map (·.key)).Nodup :=
    (hkept.map _).nodup_iff.mpr ((List.filter_sublist.map _).nodup hnodup)
  have hlies' : (ofList kept).LiesIn D := .ofList fun node hnode =>
    hlies.of_mem_nodes (List.mem_filter.mp (hkept.subset hnode)).1
  have hof := perm_nodes_ofList hkeys
  have hperm : (ofList kept).toDocumentOrder.Perm (s.toDocumentOrder.filter passes) := by
    refine (perm_toDocumentOrder ((hof.map _).nodup_iff.mpr hkeys)).trans (hof.trans ?_)
    exact hkept.trans ((perm_toDocumentOrder hnodup).filter _).symm
  refine hperm.eq_of_pairwise (fun a b _ _ hab hba => ?_) hlies'.pairwise_toDocumentOrder
    (hlies.pairwise_toDocumentOrder.filter passes)
  exact absurd hba (hab.asymm fun _ _ _ h => h.asymm)

namespace Splits

/-- What passes by its key is kept in the set and in every group. -/
theorem restrict (h : s.Splits counted D groups)
    (hkey : ∀ a b : NodeRef, a.key = b.key → passes a = passes b)
    (hkept : kept.Perm (s.nodes.filter passes)) :
    (ofList kept).Splits counted D (groups.restrict passes) := by
  have hkeys : (kept.map (·.key)).Nodup :=
    (hkept.map _).nodup_iff.mpr ((List.filter_sublist.map _).nodup h.nodup)
  have hof := perm_nodes_ofList hkeys
  have hmem {node : NodeRef} (hnode : node ∈ (ofList kept).nodes) : node ∈ s.nodes :=
    (List.mem_filter.mp (hkept.subset (hof.subset hnode))).1
  constructor
  case nodup => exact (hof.map _).nodup_iff.mpr hkeys
  case mem_iff =>
    intro key
    rw [mem_iff_exists_node, Groups.names_restrict]
    constructor
    · rintro ⟨node, hnode, rfl⟩
      obtain ⟨hnode, hpasses⟩ := List.mem_filter.mp (hkept.subset (hof.subset hnode))
      obtain ⟨group, hgroup, other, hother, hsame⟩ :=
        (h.mem_iff node.key).mp (mem_iff_exists_node.mpr ⟨node, hnode, rfl⟩)
      exact ⟨group, hgroup, other, hother, (hkey other node hsame).trans hpasses, hsame⟩
    · rintro ⟨group, hgroup, other, hother, hpasses, rfl⟩
      obtain ⟨node, hnode, hsame⟩ :=
        mem_iff_exists_node.mp ((h.mem_iff other.key).mpr ⟨group, hgroup, other, hother, rfl⟩)
      refine ⟨node, hof.symm.subset (hkept.symm.subset (List.mem_filter.mpr ⟨hnode, ?_⟩)), hsame⟩
      exact (hkey node other hsame).trans hpasses
  case lies =>
    intro hcounted
    exact .ofList fun node hnode =>
      (h.lies hcounted).of_mem_nodes (List.mem_filter.mp (hkept.subset hnode)).1
  case once =>
    intro hcounted node hnode
    exact h.once hcounted node (hmem hnode)
  case known =>
    intro hcounted node hnode c hc
    obtain ⟨group, hgroup, hname⟩ := h.known hcounted node (hmem hnode) c hc
    exact ⟨_, List.mem_map_of_mem hgroup, hname⟩
  case keys_eq =>
    intro hcounted group hgroup
    obtain ⟨own, hown, rfl⟩ := List.mem_map.mp hgroup
    have hkeys := NodeRef.map_key_filter (h.keys_eq hcounted own hown) hkey
    rw [toDocumentOrder_ofList (h.lies hcounted) h.nodup hkept, List.filter_filter]
    rw [List.filter_filter] at hkeys
    simpa only [Bool.and_comm] using hkeys

/-- Where positions count, a node remembers the context nodes whose groups name it. -/
theorem mem_context (h : s.Splits true D groups) {node x : NodeRef}
    (hnode : node ∈ s.toDocumentOrder) {group : ContextNode × List NodeRef} (hgroup : group ∈ groups)
    (hx : x ∈ group.2) (hkey : x.key = node.key) : group.1 ∈ node.context := by
  have hmem : x.key ∈ (s.toDocumentOrder.filter (group.1 ∈ ·.context)).map (·.key) := by
    rw [h.keys_eq rfl group hgroup]
    exact List.mem_map_of_mem hx
  obtain ⟨other, hother, hsame⟩ := List.mem_map.mp hmem
  obtain ⟨hother, hcontext⟩ := List.mem_filter.mp hother
  have hnodup : (s.toDocumentOrder.map (·.key)).Nodup :=
    ((perm_toDocumentOrder h.nodup).map _).nodup_iff.mpr h.nodup
  obtain rfl : other = node := List.inj_on_of_nodup_map hnodup hother hnode (hsame.trans hkey)
  exact of_decide_eq_true hcontext

/-- What is selected at a position stands at it in some group. -/
theorem select_eq (h : s.Splits true D groups) :
    Position.select axis n s.toDocumentOrder =
      s.toDocumentOrder.filter (groups.picks axis n) := by
  have hperm := perm_toDocumentOrder h.nodup
  have hnodup : (s.toDocumentOrder.map (·.key)).Nodup := (hperm.map _).nodup_iff.mpr h.nodup
  have honce : ∀ node ∈ s.toDocumentOrder, node.context.Nodup := fun node hnode =>
    h.once rfl node (hperm.subset hnode)
  have hpick {group : ContextNode × List NodeRef} (hgroup : group ∈ groups)
      (key : DocumentId × Nat) :
      (Position.pick? axis.isReverse n
          (Position.group s.toDocumentOrder (some group.1))).any (·.key = key) =
        (Position.pick? axis.isReverse n group.2).any (·.key = key) := by
    have hkeys := @Position.map_key_pick? axis.isReverse n _ _ (h.keys_eq rfl group hgroup)
    rw [Position.group_eq_filter honce]
    simpa only [Option.any_map, Function.comp_def] using congrArg (Option.any (· = key)) hkeys
  rw [Position.select_eq_filter axis n (List.pairwise_map.mp hnodup)]
  refine List.filter_congr fun node hnode => Bool.eq_iff_iff.mpr ?_
  rw [List.any_eq_true, Groups.picks, List.any_eq_true]
  constructor
  · rintro ⟨anchor, hanchor, hpicked⟩
    have hnamed := (h.mem_iff node.key).mp
      (mem_iff_exists_node.mpr ⟨node, hperm.subset hnode, rfl⟩)
    obtain ⟨own, hown, x, hx, hkey⟩ := hnamed
    rw [Position.anchorsOf_eq (h.mem_context hnode hown hx hkey)] at hanchor
    obtain ⟨c, hc, rfl⟩ := List.mem_map.mp hanchor
    obtain ⟨group, hgroup, rfl⟩ := h.known rfl node (hperm.subset hnode) c hc
    exact ⟨group, hgroup, (hpick hgroup node.key).symm.trans hpicked⟩
  · rintro ⟨group, hgroup, hpicked⟩
    obtain ⟨x, hx, hkey⟩ := (Option.any_eq_true _ _).mp hpicked
    have hcontext := h.mem_context hnode hgroup (Position.mem_of_mem_pick? hx)
      (of_decide_eq_true hkey)
    refine ⟨some group.1, ?_, (hpick hgroup node.key).trans hpicked⟩
    rw [Position.anchorsOf_eq hcontext]
    exact List.mem_map_of_mem hcontext

section

variable {store other : Store} {named : Bool} {input : Option NodeSet}
  (hdocuments : other.documents = store.documents)

include hdocuments

/-- A predicate narrows the groups as it narrows the set. -/
theorem narrow (h : s.Splits counted D groups) {p : Predicate} (hp : p.Regular named)
    (hcounted : p.needsContext → counted) :
    Concur (Splits counted D) (p.narrow other input s axis) (groups.narrow? axis store p) := by
  cases p with
  | position n =>
    obtain rfl : counted = true := hcounted rfl
    refine .ok (h.restrict (fun a b => Groups.picks_congr) ?_)
    rw [h.select_eq]
    exact (perm_toDocumentOrder h.nodup).filter _
  | filter label test =>
    have htest {a b : NodeRef} (hkey : a.key = b.key) : test other a = test store b :=
      hp other store hdocuments a b hkey
    have hfails {a b : NodeRef} (hkey : a.key = b.key) :
        Predicate.fails (test other) a = Predicate.fails (test store) b := by
      rw [Predicate.fails, htest hkey, Predicate.fails]
    have haccepts {a b : NodeRef} (hkey : a.key = b.key) :
        Predicate.accepts (test other) a = Predicate.accepts (test store) b := by
      rw [Predicate.accepts, htest hkey, Predicate.accepts]
    have hsort := perm_nodes_sort h.nodup
    rw [Predicate.narrow, Groups.narrow?]
    split
    · next hsome =>
      simp only [List.any_eq_true] at hsome
      obtain ⟨group, hgroup, x, hx, hfailed⟩ := hsome
      obtain ⟨node, hnode, hkey⟩ :=
        mem_iff_exists_node.mp ((h.mem_iff x.key).mpr ⟨group, hgroup, x, hx, rfl⟩)
      obtain ⟨fault, hfault⟩ : ∃ fault, Predicate.passing (test other) s.sort.nodes =
          .error fault :=
        Predicate.passing_of_fails ⟨node, hsort.symm.subset hnode, (hfails hkey).trans hfailed⟩
      rw [hfault]
      exact .error fault
    · next hnone =>
      simp only [List.any_eq_true] at hnone
      have hsound : ∀ node ∈ s.sort.nodes, ¬Predicate.fails (test other) node := by
        intro node hnode hfailed
        obtain ⟨group, hgroup, x, hx, hkey⟩ := (h.mem_iff node.key).mp
          (mem_iff_exists_node.mpr ⟨node, hsort.subset hnode, rfl⟩)
        exact hnone ⟨group, hgroup, x, hx, (hfails hkey.symm).symm.trans hfailed⟩
      rw [Predicate.passing_of_not_fails hsound]
      refine .ok (h.restrict (fun a b hkey => (haccepts rfl).symm.trans (haccepts hkey)) ?_)
      rw [List.filter_congr fun node _ => haccepts (a := node) rfl]
      exact hsort.filter _
  | inInput keepMembers => exact hp.elim

/-- Predicates narrow the groups as they narrow the set. -/
theorem narrowAll {input : NodeSet} {predicates : List Predicate} (h : s.Splits counted D groups)
    (hregular : ∀ p ∈ predicates, p.Regular named)
    (hcounted : ∀ p ∈ predicates, p.needsContext → counted) :
    Concur (Splits counted D) (Plan.narrowAll axis other input predicates s)
      (groups.narrowAll? axis store predicates) := by
  induction predicates generalizing s groups with
  | nil => exact .ok h
  | cons p ps ih =>
    obtain ⟨hp, hps⟩ := List.forall_mem_cons.mp hregular
    obtain ⟨hpc, hpsc⟩ := List.forall_mem_cons.mp hcounted
    exact (h.narrow hdocuments hp hpc).bind fun s' groups' h' => ih h' hps hpsc

end

end Splits

end NodeSet

/-- A result without copies whose nodes are those of some groups. -/
structure StepResult.Merges (store : Store) (result : StepResult) (groups : Groups) : Prop where
  nodup : (result.keys store).Nodup
  mem_iff : ∀ key, key ∈ result.keys store ↔ groups.Names key

theorem NodeSet.Splits.merges {store : Store} {result : StepResult} {counted : Bool}
    {D : DocumentId → Option Document} {groups : Groups}
    (h : (result.toNodeSet store.source).Splits counted D groups) : result.Merges store groups :=
  ⟨h.nodup, fun key => StepResult.mem_keys_iff.trans (h.mem_iff key)⟩

/-- The predicates of a step narrow the groups that its raw result splits into. -/
theorem Plan.applyPredicates_merges {plan : Plan} (hregular : plan.Regular) {store other : Store}
    (hdocuments : other.documents = store.documents) {result : StepResult} {input : NodeSet}
    {D : DocumentId → Option Document} {groups : Groups}
    (h : (result.toNodeSet store.source).Splits plan.counts D groups) :
    Concur (StepResult.Merges store) (plan.applyPredicates other input result)
      (groups.narrowAll? plan.axis store plan.predicates) := by
  rw [applyPredicates]
  split
  · next hnone =>
    rw [List.isEmpty_iff.mp hnone]
    exact .ok h.merges
  · have hcounted : ∀ p ∈ plan.predicates, p.needsContext → plan.counts := fun p hp hneeds =>
      List.any_eq_true.mpr ⟨p, hp, hneeds⟩
    rw [Store.source_congr hdocuments]
    have hnarrowed :=
      @NodeSet.Splits.narrowAll _ _ _ _ plan.axis _ _ _ hdocuments input _ h hregular hcounted
    exact hnarrowed.map fun set left h' => @NodeSet.Splits.merges _ (.nodes set) _ _ left h'

end TreeAxes
