import TreeAxes.Proofs.NodeSet.Assembly
import TreeAxes.Proofs.Step.Inheritance
import TreeAxes.Proofs.Step.Inputs

/-!
# Inputs assembled in different ways

A step finds the same for sets made of the same references, and what it finds remembers the same,
however they were assembled. A stream passes on what its context nodes remember, copy by copy; a
scan keeps origins. Neither tells an order or a copy apart. If the step remembers, it does not tell
either whether the nodes of its input are among their own contexts.
-/

namespace TreeAxes

variable {a b : NodeSet} {key : DocumentId × Nat} {c : ContextNode} {source : NodeSource}
  {own : Prop}

namespace NodeRef

variable {f g : NodeRef → List NodeRef} {fixed fixed' : NodeRef → DocumentId × Nat → ContextNode → Prop}
  {passed passed' : NodeRef → DocumentId × Nat → Prop} {xs ys : List NodeRef}

/-- What is produced from one node recalls some things in any case, and passes on, for some keys,
what the node remembers. -/
def Spreads (f : NodeRef → List NodeRef) (fixed : NodeRef → DocumentId × Nat → ContextNode → Prop)
    (passed : NodeRef → DocumentId × Nat → Prop) : Prop :=
  ∀ node key c, (∃ ref ∈ f node, ref.key = key ∧ c ∈ ref.context) ↔
    fixed node.bare key c ∨ passed node.bare key ∧ c ∈ node.context

/-- If nothing is asked of what a node remembers, nothing of it is passed on. -/
theorem spreads_of_bare (hbare : ∀ node : NodeRef, f node.bare = f node) :
    Spreads f (fun node key c => ∃ ref ∈ f node, ref.key = key ∧ c ∈ ref.context)
      fun _ _ => False := by
  intro node key c
  simp only [hbare, false_and, or_false]

theorem Spreads.append (hf : Spreads f fixed passed) (hg : Spreads g fixed' passed') :
    Spreads (fun node => f node ++ g node) (fun node key c => fixed node key c ∨ fixed' node key c)
      fun node key => passed node key ∨ passed' node key := by
  intro node key c
  simp only [List.mem_append, or_and_right, exists_or, hf node key c, hg node key c]
  exact or_or_or_comm

theorem Spreads.guard (hf : Spreads f fixed passed) {holds : NodeRef → Bool}
    (hbare : ∀ node : NodeRef, holds node.bare = holds node) :
    Spreads (fun node => if holds node then f node else [])
      (fun node key c => holds node ∧ fixed node key c)
      fun node key => holds node ∧ passed node key := by
  intro node key c
  simp only [hbare]
  split
  · next hholds => simp only [hholds, true_and, hf node key c]
  · next hnot => simp [hnot]

/-- A node that stands for itself keeps what it remembers. -/
theorem spreads_asSelf (remember : Bool) :
    Spreads (fun node => [node.asSelf remember])
      (fun node key c => node.key = key ∧ remember ∧ c = node.asContext)
      fun node key => node.key = key := by
  intro node key c
  have hkey : node.bare.key = node.key := rfl
  have hsame : node.bare.asContext = node.asContext := rfl
  simp only [List.mem_singleton, exists_eq_left, asSelf_key, mem_context_asSelf, HandsOn, hkey,
    hsame]
  cases remember with
  | true => simp [and_or_left]
  | false => simp

/-- References that remember nothing, once they are marked as reached from their node. -/
theorem spreads_reachedFrom (hbare : ∀ node : NodeRef, f node.bare = f node)
    (hblank : ∀ node, ∀ ref ∈ f node, ref.context = []) (remember : Bool) :
    Spreads (fun node => (f node).map (·.reachedFrom node remember))
      (fun node key c => remember ∧ key ∈ (f node).map (·.key) ∧ c = node.asContext)
      fun node key => ¬remember ∧ key ∈ (f node).map (·.key) := by
  intro node key c
  have hcontext (ref : NodeRef) (href : ref ∈ f node) :
      c ∈ (ref.reachedFrom node remember).context ↔ node.HandsOn remember c :=
    mem_context_reachedFrom_blank (hblank node ref href)
  have hall : (∃ ref ∈ (f node).map (·.reachedFrom node remember),
      ref.key = key ∧ c ∈ ref.context) ↔
        key ∈ (f node).map (·.key) ∧ node.HandsOn remember c := by
    simp only [List.mem_map, exists_exists_and_eq_and, reachedFrom_key]
    constructor
    · rintro ⟨ref, href, hkey, hc⟩
      exact ⟨⟨ref, href, hkey⟩, (hcontext ref href).mp hc⟩
    · rintro ⟨⟨ref, href, hkey⟩, hc⟩
      exact ⟨ref, href, hkey, (hcontext ref href).mpr hc⟩
  have hsame : node.bare.asContext = node.asContext := rfl
  simp only [hall, hbare, hsame, HandsOn]
  cases remember with
  | true => simp
  | false => simp

/-- What is recalled from some nodes is recalled from those that tell what they do. Where these
leave out own contexts, a node must be recalled wherever it passes something on. -/
theorem ToldBy.recalls (h : ToldBy own c xs ys) (hf : Spreads f fixed passed)
    (hg : Spreads g fixed passed)
    (hown : own → ∀ node key, passed node key → fixed node key node.asContext)
    (hrecalls : (NodeSet.ofList (xs.flatMap f)).Recalls key c) :
    (NodeSet.ofList (ys.flatMap g)).Recalls key c := by
  rw [NodeSet.recalls_ofList] at hrecalls ⊢
  obtain ⟨ref, href, hkey, hc⟩ := hrecalls
  obtain ⟨x, hx, href⟩ := List.mem_flatMap.mp href
  have hsource {y : NodeRef} (hy : y ∈ ys)
      (hproduced : ∃ ref ∈ g y, ref.key = key ∧ c ∈ ref.context) :
      ∃ ref ∈ ys.flatMap g, ref.key = key ∧ c ∈ ref.context := by
    obtain ⟨ref, href, hfound⟩ := hproduced
    exact ⟨ref, List.mem_flatMap.mpr ⟨y, hy, href⟩, hfound⟩
  have hanyway (hfixed : fixed x.bare key c) :
      ∃ ref ∈ ys.flatMap g, ref.key = key ∧ c ∈ ref.context := by
    obtain ⟨y, hy, hbare⟩ := (h x hx).1
    exact hsource hy ((hg y key c).mpr (.inl (hbare.symm ▸ hfixed)))
  obtain hfixed | ⟨hpassed, hc⟩ := (hf x key c).mp ⟨ref, href, hkey, hc⟩
  · exact hanyway hfixed
  · obtain ⟨hspared, rfl⟩ | ⟨y, hy, hbare, hc⟩ := (h x hx).2 hc
    · exact hanyway (hown hspared x.bare key hpassed)
    · exact hsource hy ((hg y key c).mpr (.inr ⟨hbare.symm ▸ hpassed, hc⟩))

end NodeRef

/-! ## Streams -/

namespace NodeSet

variable {remember : Bool}

theorem RecalledBy.recalls_asSelf (h : a.RecalledBy own c b) (hown : own → remember)
    (hrecalls : (if remember then a.setSelfAsContext else a).Recalls key c) :
    (if remember then b.setSelfAsContext else b).Recalls key c := by
  have hnodes (s : NodeSet) : (if remember then s.setSelfAsContext else s).Recalls key c ↔
      (ofList (s.nodes.flatMap fun node => [node.asSelf remember])).Recalls key c := by
    rw [recalls_ofList, Recalls, Plan.nodes_asSelf, List.map_eq_flatMap]
  rw [hnodes] at hrecalls ⊢
  exact h.toldBy.recalls (NodeRef.spreads_asSelf remember) (NodeRef.spreads_asSelf remember)
    (fun hspared _ _ hkey => ⟨hkey, hown hspared, rfl⟩) hrecalls

theorem RecalledBy.recalls_parents (h : a.RecalledBy own c b) (hown : own → remember)
    (hrecalls : (a.parents remember).Recalls key c) : (b.parents remember).Recalls key c := by
  rw [parents_eq] at hrecalls ⊢
  have hspreads := @NodeRef.spreads_reachedFrom NodeRef.parentRefs (fun _ => rfl)
    (fun _ _ href => NodeRef.context_of_mem_parentRefs href) remember
  exact h.toldBy.recalls hspreads hspreads
    (fun hspared _ _ hpassed => absurd (hown hspared) hpassed.1) hrecalls

end NodeSet

namespace Plan

variable {plan : Plan} {remember includeSelf : Bool}

theorem recalls_streamAncestors (h : a.RecalledBy own c b) (hown : own → remember)
    (hrecalls : (plan.streamAncestors a includeSelf remember).Recalls key c) :
    (plan.streamAncestors b includeSelf remember).Recalls key c := by
  have hself := @NodeRef.Spreads.guard _ _ _ (NodeRef.spreads_asSelf remember)
    (fun node => includeSelf && plan.test.matchesKind node.kind) fun _ => rfl
  have habove := @NodeRef.spreads_reachedFrom NodeRef.ancestors NodeRef.ancestors_bare
    (fun node ref href => by rw [NodeRef.eq_element_of_mem_ancestors href]; rfl) remember
  refine h.toldBy.recalls (hself.append habove) (hself.append habove) ?_ hrecalls
  rintro hspared node key (⟨hholds, hkey⟩ | ⟨hnot, -⟩)
  · exact .inl ⟨hholds, hkey, hown hspared, rfl⟩
  · exact absurd (hown hspared) hnot

theorem recalls_streamWalk (h : a.RecalledBy own c b) (hown : own → remember)
    {walk : NodeRef → List Slot} (hwalk : ∀ node : NodeRef, walk node.bare = walk node)
    (hrecalls : (plan.streamWalk a remember walk).Recalls key c) :
    (plan.streamWalk b remember walk).Recalls key c := by
  have hspreads := @NodeRef.spreads_reachedFrom
    (fun node => ((walk node).filter (plan.test.matchesKind ·.kind)).map fun slot =>
      { doc := node.doc, id := slot.id, kind := slot.kind })
    (fun node => by rw [hwalk]; rfl) (fun node ref href => by
      obtain ⟨slot, -, rfl⟩ := List.mem_map.mp href
      rfl) remember
  simp only [List.map_map] at hspreads
  exact h.toldBy.recalls hspreads hspreads
    (fun hspared _ _ hpassed => absurd (hown hspared) hpassed.1) hrecalls

end Plan

namespace LazyNodes

variable {axis : Axis} {test : NodeTest} {remember : Bool}

/-- The roots of an enumeration tell what the nodes do. -/
theorem toldBy_roots (h : a.RecalledBy own c b) :
    NodeRef.ToldBy own c (ofContext axis test a remember).roots
      (ofContext axis test b remember).roots := by
  intro x hx
  obtain ⟨y, hy, hbare⟩ := exists_root h.uniform h.twin hx
  refine ⟨⟨y, hy, hbare⟩, fun hc => ?_⟩
  have hordered : a.sort.sortInDocumentOrder.RecalledBy own c b.sort.sortInDocumentOrder :=
    h.sort.sortInDocumentOrder
  obtain hspared | ⟨z, hz, hsame, hc⟩ :=
    (hordered.toldBy x (mem_toDocumentOrder_of_mem_roots hx)).2 hc
  · exact .inl hspared
  refine .inr ⟨y, hy, hbare, ?_⟩
  have hnodup : (b.sort.toDocumentOrder.map (·.key)).Nodup :=
    ((NodeSet.perm_toDocumentOrder (NodeSet.nodup_keys_sort b)).map _).nodup_iff.mpr
      (NodeSet.nodup_keys_sort b)
  have hkey : z.key = y.key := NodeRef.key_eq_of_bare (hsame.trans hbare.symm)
  obtain rfl : z = y :=
    List.inj_on_of_nodup_map hnodup hz (mem_toDocumentOrder_of_mem_roots hy) hkey
  exact hc

/-- The context nodes above a node that was reached. -/
def anchorsAbove (v : LazyNodes) (root : NodeRef) (slot : Slot) : List ContextNode :=
  ((v.context.part? root.doc.id).elim [] fun p =>
    p.ancestors slot.id (decide (v.axis = .descendantOrSelf))).map (·.asContext)

/-- A node that was reached, before it remembers anything. -/
def reached (root : NodeRef) (slot : Slot) : NodeRef :=
  { doc := root.doc, id := slot.id, kind := slot.kind }

theorem makeRef_eq (v : LazyNodes) (root : NodeRef) (slot : Slot) :
    v.makeRef root slot =
      if v.remember && v.axis.spansSubtree then
        (reached root slot).pushContexts (v.anchorsAbove root slot)
      else (reached root slot).reachedFrom root v.remember := by
  rw [makeRef, anchorsAbove]
  cases v.context.part? root.doc.id <;> rfl

theorem anchorsAbove_of_twin (ha : a.Uniform) (h : a.Twin b) (root : NodeRef) (slot : Slot) :
    (ofContext axis test a remember).anchorsAbove root slot =
      (ofContext axis test b remember).anchorsAbove root slot := by
  have hsorted : a.sort.Twin b.sort :=
    (NodeSet.Twin.sort ha).symm.trans (h.trans (.sort (h.uniform ha)))
  have hbare (s : NodeSet) : (ofContext axis test s remember).anchorsAbove root slot =
      (((s.sort.part? root.doc.id).map Partition.bare).elim [] fun p =>
        p.ancestors slot.id (decide (axis = .descendantOrSelf))).map (·.asContext) := by
    show (((s.sort.part? root.doc.id).elim [] _).map _ : List ContextNode) = _
    cases s.sort.part? root.doc.id with
    | none => rfl
    | some p =>
      rw [Option.map_some, Option.elim_some, Option.elim_some, p.ancestors_bare, List.map_map]
      rfl
  rw [hbare, hbare, hsorted.part?_bare a.sort_order b.sort_order]

/-- What is made of what one root leads to does not depend on what context nodes remember, but for
the root. -/
theorem makeRef_of_twin (ha : a.Uniform) (h : a.Twin b) :
    (ofContext axis test a remember).makeRef = (ofContext axis test b remember).makeRef := by
  funext root slot
  rw [makeRef_eq, makeRef_eq, anchorsAbove_of_twin ha h]
  rfl

theorem exists_spreads_makeRef (v : LazyNodes) (source : NodeSource) :
    ∃ fixed passed, NodeRef.Spreads (fun root =>
      ((v.reach source root).filter (v.test.matchesKind ·.kind)).map (v.makeRef root)) fixed
        passed ∧ (v.remember → ∀ root key, ¬passed root key) := by
  by_cases hspans : v.remember && v.axis.spansSubtree
  · refine ⟨_, _, NodeRef.spreads_of_bare fun root => ?_, fun _ _ _ => id⟩
    simp only [funext (v.makeRef_eq _), if_pos hspans]
    rfl
  · have hspreads := @NodeRef.spreads_reachedFrom
      (fun root => ((v.reach source root).filter (v.test.matchesKind ·.kind)).map (reached root))
      (fun _ => rfl) (fun root ref href => by
        obtain ⟨slot, -, rfl⟩ := List.mem_map.mp href
        rfl) v.remember
    simp only [List.map_map] at hspreads
    simp only [funext (v.makeRef_eq _), if_neg hspans]
    exact ⟨_, _, hspreads, fun hremember _ _ hpassed => hpassed.1 hremember⟩

theorem recalls_realize (h : a.RecalledBy own c b) (hown : own → remember)
    (hrecalls : ((ofContext axis test a remember).realize source).Recalls key c) :
    ((ofContext axis test b remember).realize source).Recalls key c := by
  rw [realize, NodeSet.recalls_sort] at hrecalls ⊢
  obtain ⟨fixed, passed, hspreads, hnone⟩ :=
    (ofContext axis test b remember).exists_spreads_makeRef source
  refine (toldBy_roots h).recalls ?_ hspreads
    (fun hspared node key hpassed => absurd hpassed (hnone (hown hspared) node key)) hrecalls
  rw [makeRef_of_twin h.uniform h.twin]
  exact hspreads

end LazyNodes

namespace Plan

variable {plan : Plan} {source' : NodeSource} {remember : Bool}

/-- A step without the index passes on what is recalled. -/
theorem recalls_stream (h : a.RecalledBy own c b) (hown : own → remember)
    (hrecalls : ((plan.stream source a remember).toNodeSet source').Recalls key c) :
    ((plan.stream source b remember).toNodeSet source').Recalls key c := by
  rw [stream] at hrecalls ⊢
  cases haxis : plan.axis with
  | child | «attribute» | descendant | descendantOrSelf | descendantAttribute =>
    rw [haxis] at hrecalls
    exact LazyNodes.recalls_realize h hown hrecalls
  | self =>
    rw [haxis] at hrecalls
    simp only at hrecalls ⊢
    split at hrecalls
    · next hnode =>
      rw [if_pos hnode]
      exact h.recalls_asSelf hown hrecalls
    · next hother =>
      rw [if_neg hother]
      exact LazyNodes.recalls_realize h hown hrecalls
  | parent =>
    rw [haxis] at hrecalls
    exact h.recalls_parents hown hrecalls
  | ancestor | ancestorOrSelf =>
    rw [haxis] at hrecalls
    exact recalls_streamAncestors h hown hrecalls
  | followingSibling | precedingSibling | following | preceding =>
    rw [haxis] at hrecalls
    exact recalls_streamWalk h hown (fun _ => rfl) hrecalls
  | namespaceAxis =>
    rw [haxis] at hrecalls
    exact hrecalls

end Plan

/-! ## Scans -/

variable {store : Store} {relation : Relation} {kind : NodeKind}

/-- From nodes that differ only in what they remember, the same is reached. -/
theorem Store.Reaches.of_bare {x y : NodeRef} (h : store.Reaches relation kind [x] key)
    (hbare : y.bare = x.bare) : store.Reaches relation kind [y] key := by
  refine h.mono fun context hcontext => ?_
  rw [List.mem_singleton.mp hcontext]
  exact ⟨y, List.mem_singleton_self y, NodeRef.bare_eq_iff.mp hbare⟩

/-- If whatever is handed on by some nodes is handed on by others, it is recalled of what these
reach. -/
theorem NodeSet.KeepsOrigins.recalls {found found' : NodeSet}
    {asked : DocumentId × Nat → NodeKind → Prop} {xs ys : List NodeRef}
    {hands hands' : NodeRef → DocumentId × Nat → ContextNode → Prop}
    (h : found.KeepsOrigins store relation xs asked hands)
    (h' : found'.KeepsOrigins store relation ys asked hands')
    (hhands : ∀ x ∈ xs, hands x key c → ∃ y ∈ ys, y.bare = x.bare ∧ hands' y key c)
    (hrecalls : found.Recalls key c) : found'.Recalls key c := by
  obtain ⟨kind, hasked, x, hx, hreaches, hc⟩ := (h.recalls_iff key c).mp hrecalls
  obtain ⟨y, hy, hbare, hc⟩ := hhands x hx hc
  exact (h'.recalls_iff key c).mpr ⟨kind, hasked, y, hy, hreaches.of_bare hbare, hc⟩

/-- A context node that is nearest among the nodes of a set is so in a twin. -/
theorem Store.Nearest.of_twin {x y : NodeRef} (h : store.Nearest relation a.nodes key x)
    (htwin : a.Twin b) (hbare : y.bare = x.bare) : store.Nearest relation b.nodes key y := by
  intro other hother kind hreaches
  obtain ⟨x', hx', hsame⟩ := htwin.symm.exists_bare_eq hother
  have hnot := h x' hx' kind (hreaches.of_bare hsame)
  rwa [(NodeRef.bare_eq_iff.mp hsame).2.1, ← (NodeRef.bare_eq_iff.mp hbare).2.1] at hnot

namespace Plan

variable {plan : Plan} {name : QName}

section

variable (hname : plan.ScansFor name) (hrelation : plan.axis.relation? = some relation)
  (hstore : store.Sound) (ha : a.StoredIn store) (hb : b.StoredIn store)
  (h : a.RecalledBy own c b) (hown : own → plan.remembers)

include hname hrelation hstore ha hb h hown

theorem ScansFor.recalls_found
    (hrecalls : ((plan.found a fun _ => store).toNodeSet source).Recalls key c) :
    ((plan.found b fun _ => store).toNodeSet source).Recalls key c := by
  have hasks (key : DocumentId × Nat) (kind : NodeKind) :
      plan.Asks store b key kind ↔ plan.Asks store a key kind := by
    rw [asks_scanned_iff hname, asks_scanned_iff hname, searched, searched, h.twin.documents_eq]
  by_cases hremembers : plan.remembers
  · have hkeeps := (@ScansFor.obtains_found _ ⟨⟨0⟩, a⟩ _ _ _ hname hrelation hstore ha
      source).keepsOrigins hremembers
    have hkeeps' := ((@ScansFor.obtains_found _ ⟨⟨0⟩, b⟩ _ _ _ hname hrelation hstore hb
      source).keepsOrigins hremembers).congr (fun key kind _ => hasks key kind) fun _ _ _ => .rfl
    have hanyway (x : NodeRef) (hx : x ∈ a.nodes) (hsame : c = x.asContext) :
        ∃ y ∈ b.nodes, y.bare = x.bare ∧ plan.Remembers y key c := by
      obtain ⟨y, hy, hbare⟩ := (h.toldBy x hx).1
      exact ⟨y, hy, hbare, .inl (hsame.trans (congrArg NodeRef.asContext hbare).symm)⟩
    refine hkeeps.recalls hkeeps' (fun x hx hc => ?_) hrecalls
    obtain hsame | ⟨hearlier, hkey, hc⟩ := hc
    · exact hanyway x hx hsame
    · obtain ⟨-, hsame⟩ | ⟨y, hy, hbare, hc⟩ := (h.toldBy x hx).2 hc
      · exact hanyway x hx hsame
      · exact ⟨y, hy, hbare, .inr ⟨hearlier, (NodeRef.key_eq_of_bare hbare).trans hkey, hc⟩⟩
  · have htold (x : NodeRef) (hx : x ∈ a.nodes) (hc : c ∈ x.context) :
        ∃ y ∈ b.nodes, y.bare = x.bare ∧ c ∈ y.context :=
      ((h.toldBy x hx).2 hc).resolve_left fun hspared => hremembers (hown hspared.1)
    rw [Bool.not_eq_true] at hremembers
    by_cases hstrategy : plan.strategy = .pushdown
    · have hkeeps := @keepsOrigins_of_pushdown _ _ _ ⟨⟨0⟩, a⟩ _ hname.1 hrelation hremembers hstore
        ha hstrategy source
      have hkeeps' := (@keepsOrigins_of_pushdown _ _ _ ⟨⟨0⟩, b⟩ _ hname.1 hrelation hremembers
        hstore hb hstrategy source).congr (fun key kind _ => hasks key kind) fun _ _ _ => .rfl
      refine hkeeps.recalls hkeeps' (fun x hx hown => ?_) hrecalls
      obtain ⟨hnearest, hc⟩ := hown
      obtain ⟨y, hy, hbare, hc⟩ := htold x hx hc
      exact ⟨y, hy, hbare, hnearest.of_twin h.twin hbare, hc⟩
    · have hkeeps := @keepsOrigins_of_join _ _ _ ⟨⟨0⟩, a⟩ _ hname.1 hrelation hremembers hstore ha
        hstrategy source
      have hkeeps' := (@keepsOrigins_of_join _ _ _ ⟨⟨0⟩, b⟩ _ hname.1 hrelation hremembers hstore hb
        hstrategy source).congr (fun key kind _ => hasks key kind) fun _ _ _ => .rfl
      exact hkeeps.recalls hkeeps' htold hrecalls

end

/-- What a step finds for a set is recalled of what it finds for one that the set is recalled by.
Own contexts do not count if the step remembers, for then context nodes hand on themselves anyway. -/
theorem recalls_found (haxis : plan.axis ≠ .namespaceAxis) (hstore : store.Sound)
    (ha : a.StoredIn store) (hb : b.StoredIn store) (h : a.RecalledBy own c b)
    (hown : own → plan.remembers)
    (hrecalls : ((plan.found a fun _ => store).toNodeSet source).Recalls key c) :
    ((plan.found b fun _ => store).toNodeSet source).Recalls key c := by
  by_cases hmay : plan.axis.elementsOnly → plan.test.mayMatchElement
  · cases hname : plan.test.name with
    | some name =>
      obtain ⟨relation, hrelation⟩ := Axis.exists_relation_iff.mpr haxis
      exact ScansFor.recalls_found ⟨hname, hmay⟩ hrelation hstore ha hb h hown hrecalls
    | none =>
      rw [found, if_neg fun hexcludes => excludes_iff.mp hexcludes hmay, hname] at hrecalls ⊢
      exact recalls_stream h hown hrecalls
  · rw [found_excluded hmay] at hrecalls ⊢
    exact hrecalls

/-- The same holds of single nodes, once there are no copies of them. -/
theorem mem_context_found (haxis : plan.axis ≠ .namespaceAxis) (hstore : store.Sound)
    (ha : a.StoredIn store) (hb : b.StoredIn store) (h : a.RecalledBy own c b)
    (hown : own → plan.remembers) {node node' : NodeRef}
    (hnode : node ∈ ((plan.found a fun _ => store).deduplicate.toNodeSet source).nodes)
    (hnode' : node' ∈ ((plan.found b fun _ => store).deduplicate.toNodeSet source).nodes)
    (hkey : node.key = node'.key) (hc : c ∈ node.context) : c ∈ node'.context := by
  rw [StepResult.toNodeSet_deduplicate] at hnode hnode'
  rw [NodeSet.mem_context_sort_iff hnode] at hc
  rw [NodeSet.mem_context_sort_iff hnode', ← hkey]
  exact recalls_found haxis hstore ha hb h hown hc

/-- Without its copies, what a step finds for sets that tell the same are the same nodes, and these
remember the same. -/
theorem deduplicate_found_alike (haxis : plan.axis ≠ .namespaceAxis) (hstore : store.Sound)
    (ha : a.StoredIn store) (hb : b.StoredIn store) (h : a.Kin b) :
    let raw := (plan.found a fun _ => store).deduplicate
    let raw' := (plan.found b fun _ => store).deduplicate
    (∀ key, key ∈ raw.keys store ↔ key ∈ raw'.keys store) ∧
      ∀ node ∈ (raw.toNodeSet store.source).nodes,
        ∀ node' ∈ (raw'.toNodeSet store.source).nodes, node.key = node'.key →
          ∀ c, c ∈ node.context ↔ c ∈ node'.context := by
  intro raw raw'
  refine ⟨fun key => ?_, fun node hnode node' hnode' hkey c => ?_⟩
  · rw [StepResult.mem_keys_iff, StepResult.mem_keys_iff, StepResult.mem_deduplicate,
      StepResult.mem_deduplicate]
    exact mem_found_iff_of_twin h.uniform h.twin
  · exact ⟨mem_context_found haxis hstore ha hb (h.recalledBy c) False.elim hnode hnode' hkey,
      mem_context_found haxis hstore hb ha (h.symm.recalledBy c) False.elim hnode' hnode hkey.symm⟩

/-- A new step without predicates answers the same for inputs that were assembled from the same
stored nodes, whatever the order, the repetitions and what was asked meanwhile: the raw results
name the same nodes, and these remember the same. If a scan is to fail, it fails for either. -/
theorem eval_assembled {first second : List NodeSet.Operation} (identity identity' : SetIdentity)
    (hplain : plan.IsPlain) (haxis : plan.axis ≠ .namespaceAxis) (hstore : store.Sound)
    (hfirst : ∀ operation ∈ first, operation.Assembles)
    (hsecond : ∀ operation ∈ second, operation.Assembles)
    (hstored : ∀ node ∈ first.flatMap NodeSet.Operation.added, node.StoredIn store)
    (hsame : ∀ node, node ∈ first.flatMap NodeSet.Operation.added ↔
      node ∈ second.flatMap NodeSet.Operation.added) :
    let evaluation := plan.fresh.eval ⟨identity, .run first⟩ store
    let evaluation' := plan.fresh.eval ⟨identity', .run second⟩ store
    if store.failNext && plan.scans then
      evaluation.outcome = .error (.index .injected) ∧
        evaluation'.outcome = .error (.index .injected)
    else
      ∃ raw raw', evaluation.step.cached = some raw ∧ evaluation'.step.cached = some raw' ∧
        evaluation.outcome = .ok raw.result ∧ evaluation'.outcome = .ok raw'.result ∧
        (∀ key, key ∈ raw.result.keys store ↔ key ∈ raw'.result.keys store) ∧
        ∀ node ∈ (raw.result.toNodeSet store.source).nodes,
          ∀ node' ∈ (raw'.result.toNodeSet store.source).nodes, node.key = node'.key →
            ∀ c, c ∈ node.context ↔ c ∈ node'.context := by
  intro evaluation evaluation'
  have hraw := exists_raw hplain.2 haxis ⟨identity, .run first⟩ store
  have hraw' := exists_raw hplain.2 haxis ⟨identity', .run second⟩ store
  by_cases hfail : store.failNext && plan.scans
  · rw [if_pos hfail]
    exact ⟨(if_pos hfail).mp hraw, (if_pos hfail).mp hraw'⟩
  · rw [if_neg hfail]
    obtain ⟨raw, hcached, hresult, other, left, -, houtcome⟩ := (if_neg hfail).mp hraw
    obtain ⟨raw', hcached', hresult', other', left', -, houtcome'⟩ := (if_neg hfail).mp hraw'
    have hinput : (NodeSet.run first).StoredIn store :=
      NodeSet.storedIn_run hstore fun operation hoperation node hnode =>
        hstored node (List.mem_flatMap.mpr ⟨operation, hoperation, hnode⟩)
    have hinput' : (NodeSet.run second).StoredIn store :=
      NodeSet.storedIn_run hstore fun operation hoperation node hnode =>
        hstored node ((hsame node).mpr (List.mem_flatMap.mpr ⟨operation, hoperation, hnode⟩))
    have hkin := (NodeSet.MadeOf.run hfirst).kin (NodeSet.MadeOf.run hsecond) hinput hinput' hstore
      hsame
    have hunchanged (store : Store) (left : NodeSet) (result : StepResult) :
        plan.applyPredicates store left result = .ok result := by
      rw [applyPredicates, hplain.1]
      rfl
    have halike := @deduplicate_found_alike _ _ _ plan haxis hstore hinput hinput' hkin
    refine ⟨raw, raw', hcached, hcached', houtcome.trans (hunchanged _ _ _),
      houtcome'.trans (hunchanged _ _ _), ?_⟩
    rw [hresult, hresult']
    exact halike

/-- Nodes of a name, each remembering itself. -/
def selfAware (label : String) : List NodeRef :=
  (nest.named ⟨1⟩ label).map fun node => node.pushContext node.asContext

theorem eval_assembled_selfAware :
    let first : List NodeSet.Operation := [.addAll (selfAware "r"), .sort, .addAll (selfAware "a")]
    let second : List NodeSet.Operation := [.addAll (selfAware "a"), .sortInDocumentOrder,
      .addAll (selfAware "r"), .contains ⟨1⟩ 3, .addAll (selfAware "a")]
    let evaluation := leavesBelow.fresh.eval ⟨⟨0⟩, .run first⟩ nest
    let evaluation' := leavesBelow.fresh.eval ⟨⟨1⟩, .run second⟩ nest
    ∃ raw raw', evaluation.step.cached = some raw ∧ evaluation'.step.cached = some raw' ∧
      evaluation.outcome = .ok raw.result ∧ evaluation'.outcome = .ok raw'.result ∧
      (∀ key, key ∈ raw.result.keys nest ↔ key ∈ raw'.result.keys nest) ∧
      ∀ node ∈ (raw.result.toNodeSet nest.source).nodes,
        ∀ node' ∈ (raw'.result.toNodeSet nest.source).nodes, node.key = node'.key →
          ∀ c, c ∈ node.context ↔ c ∈ node'.context := by
  intro first second
  have hstored : ∀ node ∈ first.flatMap NodeSet.Operation.added, node.StoredIn nest := by
    have haware {label : String} {ref : NodeRef} (href : ref ∈ selfAware label) :
        ref.StoredIn nest := by
      obtain ⟨node, hnode, rfl⟩ := List.mem_map.mp href
      exact (Store.storedIn_named sound_nest hnode).pushContext _
    intro node hnode
    simp only [first, List.flatMap_cons, List.flatMap_nil, NodeSet.Operation.added,
      List.mem_append, List.not_mem_nil, or_false, false_or] at hnode
    exact hnode.elim haware haware
  have hsame : ∀ node, node ∈ first.flatMap NodeSet.Operation.added ↔
      node ∈ second.flatMap NodeSet.Operation.added := by
    intro node
    simp only [first, second, List.flatMap_cons, List.flatMap_nil, NodeSet.Operation.added,
      List.mem_append, List.not_mem_nil, or_false, false_or]
    tauto
  have hassembled := @eval_assembled nest leavesBelow first second ⟨0⟩ ⟨1⟩ ⟨rfl, rfl⟩ nofun
    sound_nest (by simp [first, NodeSet.Operation.Assembles])
    (by simp [second, NodeSet.Operation.Assembles]) hstored hsame
  have hready : ¬(nest.failNext && leavesBelow.scans) := by decide
  exact (if_neg hready).mp hassembled

end Plan

end TreeAxes
