import TreeAxes.Proofs.NodeSet.Stored
import TreeAxes.Proofs.NodeSet.Twins

/-!
# How a set was assembled

A set is assembled by adding references, in any order and some of them again; what is asked of it
meanwhile may sort it. It holds and recalls what was added, and nothing else tells how it was
assembled: `MadeOf`. Sets made of the same stored references are twins that recall the same.
-/

namespace TreeAxes

namespace NodeSet

variable {s t : NodeSet} {refs others : List NodeRef} {key : DocumentId × Nat} {c : ContextNode}
  {store : Store}

/-- Sorting in document order forgets nothing, either. -/
theorem recalls_sortInDocumentOrder : s.sortInDocumentOrder.Recalls key c ↔ s.Recalls key c := by
  refine Iff.trans (exists_congr fun node => and_congr_left fun _ => ?_) recalls_sort
  exact s.perm_nodes_sortInDocumentOrder.mem_iff

/-- Operations that add to a set or only ask it for something. -/
def Operation.Assembles : Operation → Prop
  | .remove _ | .setSelfAsContext => False
  | _ => True

/-- A set that holds some references and recalls what they remember. -/
structure MadeOf (s : NodeSet) (refs : List NodeRef) : Prop where
  mem_iff : ∀ key, key ∈ s ↔ ∃ ref ∈ refs, ref.key = key
  recalls_iff : ∀ key c, s.Recalls key c ↔ ∃ ref ∈ refs, ref.key = key ∧ c ∈ ref.context

namespace MadeOf

theorem empty : NodeSet.empty.MadeOf [] where
  mem_iff key := iff_of_false (not_mem_empty key) nofun
  recalls_iff key c := by
    refine iff_of_false ?_ nofun
    rintro ⟨node, hnode, -⟩
    cases hnode

theorem sort (h : s.MadeOf refs) : s.sort.MadeOf refs :=
  ⟨fun key => mem_sort.trans (h.mem_iff key), fun key c => recalls_sort.trans (h.recalls_iff key c)⟩

theorem sortInDocumentOrder (h : s.MadeOf refs) : s.sortInDocumentOrder.MadeOf refs :=
  ⟨fun key => mem_sortInDocumentOrder.trans (h.mem_iff key),
    fun key c => recalls_sortInDocumentOrder.trans (h.recalls_iff key c)⟩

theorem addAll (h : s.MadeOf refs) (nodes : List NodeRef) :
    (s.addAll nodes).MadeOf (refs ++ nodes) where
  mem_iff key := by
    rw [mem_addAll, h.mem_iff, or_comm]
    simp only [List.mem_append, or_and_right, exists_or, eq_comm (a := key)]
  recalls_iff key c := by
    rw [recalls_addAll, h.recalls_iff]
    simp only [List.mem_append, or_and_right, exists_or]

/-- What an operation adds is added to what the set is made of. -/
theorem perform (h : s.MadeOf refs) {operation : Operation} (hassembles : operation.Assembles) :
    (s.perform operation).MadeOf (refs ++ operation.added) := by
  cases operation with
  | add node => exact h.addAll [node]
  | addAll nodes => exact h.addAll nodes
  | addSet other => exact h.addAll other.nodes
  | remove node => exact hassembles.elim
  | setSelfAsContext => exact hassembles.elim
  | _ =>
    show (s.perform _).MadeOf (refs ++ [])
    rw [List.append_nil]
    exact perform_of_asks (motive := (·.MadeOf refs)) rfl h h.sort h.sortInDocumentOrder

/-- After any such operations, a set is made of what was added. -/
theorem run {operations : List Operation} (h : ∀ operation ∈ operations, operation.Assembles) :
    (run operations).MadeOf (operations.flatMap Operation.added) := by
  suffices ∀ (s : NodeSet) (refs : List NodeRef), s.MadeOf refs →
      (operations.foldl NodeSet.perform s).MadeOf (refs ++ operations.flatMap Operation.added) from
    this NodeSet.empty [] empty
  induction operations with
  | nil =>
    intro s refs hs
    rwa [List.flatMap_nil, List.append_nil]
  | cons operation operations ih =>
    obtain ⟨hfirst, hrest⟩ := List.forall_mem_cons.mp h
    intro s refs hs
    rw [List.flatMap_cons, ← List.append_assoc]
    exact ih hrest _ _ (hs.perform hfirst)

end MadeOf

/-- The copies of a stored node agree on what is stored. -/
theorem StoredIn.uniform (h : s.StoredIn store) (hstore : store.Sound) : s.Uniform := by
  intro a ha b hb hkey
  obtain ⟨hdoc, -, hkind⟩ := (h.of_mem_nodes ha).agree (h.of_mem_nodes hb) hstore hkey
  exact ⟨hkind, hdoc⟩

/-- The documents of a stored set are those that the store has of its nodes. -/
theorem StoredIn.mem_docs (hs : s.StoredIn store) (ht : t.StoredIn store) (hstore : store.Sound)
    (hsame : ∀ key, key ∈ s → key ∈ t) {doc : Document} (hdoc : doc ∈ s.parts.map (·.doc)) :
    doc ∈ t.parts.map (·.doc) := by
  obtain ⟨p, hp, rfl⟩ := List.mem_map.mp hdoc
  obtain ⟨node, hnode⟩ := List.exists_mem_of_ne_nil _ (s.owned p hp).1
  obtain ⟨q, hq, hid, -⟩ :=
    mem_def.mp (hsame (p.doc.id, node.id) ⟨p, hp, rfl, List.mem_map_of_mem hnode⟩)
  obtain ⟨d, hd, hpdoc, -⟩ := hs p hp
  obtain ⟨e, he, hqdoc, -⟩ := ht q hq
  obtain rfl : e = d := hstore.eq_of_id he hd (by rw [← hqdoc, ← hpdoc]; exact hid)
  exact List.mem_map.mpr ⟨q, hq, hqdoc.trans hpdoc.symm⟩

/-- Stored sets that hold the same nodes are twins. -/
theorem StoredIn.twin (hs : s.StoredIn store) (ht : t.StoredIn store) (hstore : store.Sound)
    (hsame : ∀ key, key ∈ s ↔ key ∈ t) : s.Twin t where
  docs := by
    have hordered (u : NodeSet) : (u.parts.map (·.doc)).Pairwise (·.id.raw < ·.id.raw) :=
      List.pairwise_map.mpr u.ascending
    have hnodup (u : NodeSet) : (u.parts.map (·.doc)).Nodup := by
      refine (hordered u).imp ?_
      rintro a b hlt rfl
      exact Nat.lt_irrefl _ hlt
    have hperm := (List.perm_ext_iff_of_nodup (hnodup s) (hnodup t)).mpr fun doc =>
      ⟨hs.mem_docs ht hstore fun key => (hsame key).mp,
        ht.mem_docs hs hstore fun key => (hsame key).mpr⟩
    exact hperm.eq_of_pairwise (fun a b _ _ hab hba => absurd hba (Nat.lt_asymm hab))
      (hordered s) (hordered t)
  mem_iff node := by
    have hsub {u v : NodeSet} (hu : u.StoredIn store) (hv : v.StoredIn store)
        (hsame : ∀ key, key ∈ u ↔ key ∈ v) (hnode : node ∈ u.nodes.map NodeRef.bare) :
        node ∈ v.nodes.map NodeRef.bare := by
      obtain ⟨copy, hcopy, rfl⟩ := List.mem_map.mp hnode
      obtain ⟨other, hother, hbare⟩ := hu.exists_same hv hstore hsame hcopy
      exact List.mem_map.mpr ⟨other, hother, NodeRef.bare_eq_iff.mpr hbare⟩
    exact ⟨hsub hs ht hsame, hsub ht hs fun key => (hsame key).symm⟩

/-- Twins that recall the same. -/
structure Kin (s t : NodeSet) : Prop where
  uniform : s.Uniform
  twin : s.Twin t
  recalls_iff : ∀ key c, s.Recalls key c ↔ t.Recalls key c

theorem MadeOf.kin (hs : s.MadeOf refs) (ht : t.MadeOf others) (hsstored : s.StoredIn store)
    (htstored : t.StoredIn store) (hstore : store.Sound)
    (hsame : ∀ ref, ref ∈ refs ↔ ref ∈ others) : s.Kin t where
  uniform := hsstored.uniform hstore
  twin := hsstored.twin htstored hstore fun key => by
    rw [hs.mem_iff, ht.mem_iff]
    exact exists_congr fun ref => and_congr_left fun _ => hsame ref
  recalls_iff key c := by
    rw [hs.recalls_iff, ht.recalls_iff]
    exact exists_congr fun ref => and_congr_left fun _ => hsame ref

theorem Kin.symm (h : s.Kin t) : t.Kin s :=
  ⟨h.twin.uniform h.uniform, h.twin.symm, fun key c => (h.recalls_iff key c).symm⟩

/-- What a set recalls of a context node, its twin recalls as well, except perhaps where the node is
that context node itself. -/
structure RecalledBy (own : Prop) (c : ContextNode) (s t : NodeSet) : Prop where
  uniform : s.Uniform
  twin : s.Twin t
  recalls : ∀ key, s.Recalls key c → own ∧ c = ⟨key.1, key.2⟩ ∨ t.Recalls key c

theorem Kin.recalledBy (h : s.Kin t) (c : ContextNode) : s.RecalledBy False c t :=
  ⟨h.uniform, h.twin, fun key hrecalls => .inr ((h.recalls_iff key c).mp hrecalls)⟩

namespace RecalledBy

variable {own : Prop}

theorem sort (h : s.RecalledBy own c t) : s.sort.RecalledBy own c t.sort where
  uniform := (Twin.sort h.uniform).uniform h.uniform
  twin := (Twin.sort h.uniform).symm.trans (h.twin.trans (.sort (h.twin.uniform h.uniform)))
  recalls key hrecalls := (h.recalls key (recalls_sort.mp hrecalls)).imp_right recalls_sort.mpr

theorem sortInDocumentOrder (h : s.RecalledBy own c t) :
    s.sortInDocumentOrder.RecalledBy own c t.sortInDocumentOrder where
  uniform := (Twin.sortInDocumentOrder h.uniform).uniform h.uniform
  twin := (Twin.sortInDocumentOrder h.uniform).symm.trans
    (h.twin.trans (.sortInDocumentOrder (h.twin.uniform h.uniform)))
  recalls key hrecalls := (h.recalls key (recalls_sortInDocumentOrder.mp hrecalls)).imp_right
    recalls_sortInDocumentOrder.mpr

end RecalledBy

end NodeSet

/-! ## Nodes that tell what others do -/

namespace NodeRef

/-- Whatever some nodes are, others are as well. What they remember of a context node, these
remember, too, except perhaps where a node is that context node itself. -/
def ToldBy (own : Prop) (c : ContextNode) (xs ys : List NodeRef) : Prop :=
  ∀ x ∈ xs, (∃ y ∈ ys, y.bare = x.bare) ∧
    (c ∈ x.context → own ∧ c = x.asContext ∨ ∃ y ∈ ys, y.bare = x.bare ∧ c ∈ y.context)

end NodeRef

theorem NodeSet.RecalledBy.toldBy {own : Prop} {s t : NodeSet} (h : s.RecalledBy own c t) :
    NodeRef.ToldBy own c s.nodes t.nodes := by
  intro x hx
  obtain ⟨y, hy, hbare⟩ := h.twin.exists_bare_eq hx
  refine ⟨⟨y, hy, hbare⟩, fun hc => ?_⟩
  obtain hown | ⟨z, hz, hkey, hc⟩ := h.recalls x.key ⟨x, hx, rfl, hc⟩
  · exact .inl hown
  obtain ⟨hkind, hdoc⟩ :=
    h.twin.uniform h.uniform z hz y hy (hkey.trans (NodeRef.key_eq_of_bare hbare).symm)
  obtain ⟨hydoc, hyid, hykind⟩ := NodeRef.bare_eq_iff.mp hbare
  refine .inr ⟨z, hz, NodeRef.bare_eq_iff.mpr ⟨hdoc.trans hydoc, ?_, hkind.trans hykind⟩, hc⟩
  exact congrArg Prod.snd hkey

end TreeAxes
