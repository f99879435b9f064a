import TreeAxes.Proofs.NodeSet.Contexts

/-!
# Alike sets

Two sets without copies are alike if they hold the same nodes and, where positions count, remember
the same of each node and order their nodes by the same documents. Whatever order is asked for,
alike sets give it node by node.
-/

namespace TreeAxes

namespace NodeRef

/-- What may be asked of a node: what it names and, where positions count, what it remembers. -/
def trace (counted : Bool) (node : NodeRef) : (DocumentId × Nat) × Multiset ContextNode :=
  (node.key, if counted then node.context else 0)

theorem map_key_of_map_trace {counted : Bool} {xs ys : List NodeRef}
    (h : xs.map (trace counted) = ys.map (trace counted)) : xs.map key = ys.map key := by
  have hfst (nodes : List NodeRef) : (nodes.map (trace counted)).map (·.1) = nodes.map key :=
    List.map_map
  rw [← hfst, ← hfst, h]

end NodeRef

namespace NodeSet

variable {D : DocumentId → Option Document} {s t : NodeSet} {node : NodeRef}
  {nodes : List NodeRef} {counted : Bool}

/-- All references of a set are to one version of each document. -/
def LiesIn (D : DocumentId → Option Document) (s : NodeSet) : Prop :=
  ∀ p ∈ s.parts, D p.doc.id = some p.doc ∧ ∀ node ∈ p.nodes, D node.doc.id = some node.doc

namespace LiesIn

theorem of_mem_nodes (h : s.LiesIn D) (hnode : node ∈ s.nodes) :
    D node.doc.id = some node.doc := by
  obtain ⟨p, hp, hnode⟩ := List.mem_flatMap.mp hnode
  exact (h p hp).2 node hnode

theorem add (h : s.LiesIn D) (hnode : D node.doc.id = some node.doc) : (s.add node).LiesIn D := by
  intro p hp
  have hp : p ∈ Partition.insertNode node s.parts := hp
  obtain ⟨before, after, ⟨hparts, hinsert⟩ | ⟨q, hparts, -, hinsert⟩⟩ :=
    insertNode_cases node s.parts
  · rw [hinsert, List.mem_append, List.mem_cons, or_left_comm, ← List.mem_append, ← hparts] at hp
    obtain rfl | hp := hp
    · exact ⟨hnode, fun other hother => List.mem_singleton.mp hother ▸ hnode⟩
    · exact h p hp
  · have hq := h q (hparts ▸ List.mem_append_right _ List.mem_cons_self)
    rw [hinsert, List.mem_append, List.mem_cons, or_left_comm] at hp
    obtain rfl | hp := hp
    · refine ⟨hq.1, ?_⟩
      rw [Partition.nodes_add]
      exact Partition.forall_mem_append (P := fun other => D other.doc.id = some other.doc)
        (fun _ _ ha => ha) hq.2 hnode
    · refine h p ?_
      rw [hparts, List.mem_append, List.mem_cons]
      exact hp.imp_right .inr

theorem ofList (h : ∀ node ∈ nodes, D node.doc.id = some node.doc) :
    (NodeSet.ofList nodes).LiesIn D := by
  have hempty : NodeSet.empty.LiesIn D := by
    intro p hp
    cases hp
  rw [NodeSet.ofList, addAll]
  exact List.foldlRecOn nodes NodeSet.add hempty fun s hs node hnode => hs.add (h node hnode)

theorem sort (h : s.LiesIn D) : s.sort.LiesIn D := by
  intro q hq
  rw [parts_sort] at hq
  obtain ⟨p, hp, rfl⟩ := List.mem_map.mp hq
  refine ⟨(h p hp).1, ?_⟩
  rw [Partition.mergeCopies_eq, Partition.nodes_removeDuplicates]
  exact Partition.forall_mem_collapse (P := fun other => D other.doc.id = some other.doc)
    (fun _ _ ha => ha) fun other hother =>
      (h p hp).2 other (p.perm_sortById.mem_iff.mp hother)

end LiesIn

/-- Order by document, then by `within`, which may depend on the document. -/
def KeyBefore (within : DocumentId → Nat → Nat → Prop) (a b : DocumentId × Nat) : Prop :=
  a.1.raw < b.1.raw ∨ a.1 = b.1 ∧ within a.1 a.2 b.2

instance (within : DocumentId → Nat → Nat → Prop) [∀ doc a b, Decidable (within doc a b)]
    (a b : DocumentId × Nat) : Decidable (KeyBefore within a b) :=
  inferInstanceAs (Decidable (_ ∨ _))

theorem KeyBefore.asymm {within : DocumentId → Nat → Nat → Prop}
    (hwithin : ∀ doc a b, within doc a b → ¬within doc b a) {a b : DocumentId × Nat}
    (hab : KeyBefore within a b) : ¬KeyBefore within b a := by
  rintro (hba | ⟨heq, hba⟩)
  · obtain hlt | ⟨heq, -⟩ := hab
    · exact Nat.lt_asymm hlt hba
    · rw [heq] at hba
      exact Nat.lt_irrefl _ hba
  · obtain hlt | ⟨-, hlt⟩ := hab
    · rw [heq] at hlt
      exact Nat.lt_irrefl _ hlt
    · exact hwithin _ _ _ hlt (heq ▸ hba)

/-- Document order of identifiers, by the version of their document. -/
def Within (D : DocumentId → Option Document) (doc : DocumentId) (a b : Nat) : Prop :=
  ∃ d, D doc = some d ∧ d.numbering.compareDocumentOrder a b = .lt

theorem Within.asymm {doc : DocumentId} {a b : Nat} (hab : Within D doc a b) :
    ¬Within D doc b a := by
  rintro ⟨e, he, hba⟩
  obtain ⟨d, hd, hab⟩ := hab
  obtain rfl := Option.some_inj.mp (hd.symm.trans he)
  exact Std.OrientedCmp.not_lt_of_lt hab hba

instance (doc : DocumentId) (a b : Nat) : Decidable (Within D doc a b) :=
  decidable_of_iff ((D doc).any fun d => d.numbering.compareDocumentOrder a b = .lt) (by
    simp only [Option.any_eq_true, decide_eq_true_eq]
    rfl)

/-- References to one version of each document come in the document order of these. -/
theorem LiesIn.pairwise_toDocumentOrder (h : s.LiesIn D) :
    s.toDocumentOrder.Pairwise fun a b => KeyBefore (Within D) a.key b.key := by
  have hpairwise := pairwise_nodes_of_documentOrder s.sortInDocumentOrder_order
  rw [precedesInPart_sortInDocumentOrder] at hpairwise
  refine hpairwise.imp fun {a b} hab => hab.imp_right fun ⟨heq, p, hpart, hlt⟩ => ⟨heq, ?_⟩
  obtain ⟨hp, hdoc⟩ := part?_eq_some_iff.mp hpart
  refine ⟨p.doc, ?_, hlt⟩
  show D a.doc.id = _
  rw [← hdoc]
  exact (h p hp).1

/-- In a strict order there is one way to list the same, whatever is told of the nodes beside
their keys. -/
theorem map_eq_of_perm {β : Type} {tell : NodeRef → (DocumentId × Nat) × β}
    (htell : ∀ node, (tell node).1 = node.key) {within : DocumentId → Nat → Nat → Prop}
    (hwithin : ∀ doc a b, within doc a b → ¬within doc b a) {xs ys : List NodeRef}
    (hperm : (xs.map tell).Perm (ys.map tell))
    (hxs : xs.Pairwise fun a b => KeyBefore within a.key b.key)
    (hys : ys.Pairwise fun a b => KeyBefore within a.key b.key) :
    xs.map tell = ys.map tell := by
  have hordered {nodes : List NodeRef}
      (hnodes : nodes.Pairwise fun a b => KeyBefore within a.key b.key) :
      (nodes.map tell).Pairwise fun x y => KeyBefore within x.1 y.1 := by
    refine List.pairwise_map.mpr (hnodes.imp fun {a b} hab => ?_)
    rwa [htell, htell]
  exact hperm.eq_of_pairwise (fun x y _ _ hxy hyx => absurd hyx (hxy.asymm hwithin))
    (hordered hxs) (hordered hys)

/-- In a strict order there is one way to list the same keys. -/
theorem eq_of_mem_iff {within : DocumentId → Nat → Nat → Prop}
    (hwithin : ∀ doc a b, within doc a b → ¬within doc b a) {xs ys : List (DocumentId × Nat)}
    (hxs : xs.Pairwise (KeyBefore within)) (hys : ys.Pairwise (KeyBefore within))
    (hmem : ∀ key, key ∈ xs ↔ key ∈ ys) : xs = ys := by
  have hnodup {keys : List (DocumentId × Nat)} (hkeys : keys.Pairwise (KeyBefore within)) :
      keys.Nodup := by
    refine hkeys.imp ?_
    rintro a b hab rfl
    exact hab.asymm hwithin hab
  have hperm := (List.perm_ext_iff_of_nodup (hnodup hxs) (hnodup hys)).mpr hmem
  exact hperm.eq_of_pairwise (fun x y _ _ hxy hyx => absurd hyx (hxy.asymm hwithin)) hxs hys

/-- A node without copies remembers all that the set recalls of it. -/
theorem mem_context_iff_recalls (hs : (s.nodes.map (·.key)).Nodup) (hnode : node ∈ s.nodes)
    {c : ContextNode} : c ∈ node.context ↔ s.Recalls node.key c := by
  constructor
  · intro hc
    exact ⟨node, hnode, rfl, hc⟩
  · rintro ⟨other, hother, hkey, hc⟩
    rwa [List.inj_on_of_nodup_map hs hother hnode hkey] at hc

theorem mem_map_trace_of_recalls (hs : (s.nodes.map (·.key)).Nodup)
    (ht : (t.nodes.map (·.key)).Nodup) (hmem : ∀ key, key ∈ s ↔ key ∈ t)
    (hrecalls : counted → s.RecallsOnce ∧ t.RecallsOnce ∧
      ∀ key c, s.Recalls key c ↔ t.Recalls key c)
    {x : (DocumentId × Nat) × Multiset ContextNode}
    (hx : x ∈ s.nodes.map (NodeRef.trace counted)) : x ∈ t.nodes.map (NodeRef.trace counted) := by
  obtain ⟨node, hnode, rfl⟩ := List.mem_map.mp hx
  obtain ⟨other, hother, hkey⟩ := mem_iff_exists_node.mp
    ((hmem node.key).mp (mem_iff_exists_node.mpr ⟨node, hnode, rfl⟩))
  refine List.mem_map.mpr ⟨other, hother, Prod.ext hkey ?_⟩
  show (if counted then (other.context : Multiset ContextNode) else 0) =
    if counted then (node.context : Multiset ContextNode) else 0
  split
  · next hcounted =>
    obtain ⟨hsonce, htonce, hsame⟩ := hrecalls hcounted
    refine Quot.sound ((List.perm_ext_iff_of_nodup (htonce other hother)
      (hsonce node hnode)).mpr fun c => ?_)
    rw [mem_context_iff_recalls ht hother, mem_context_iff_recalls hs hnode, hkey, hsame]
  · rfl

/-- Sets without copies of which the same may be asked. Positions also ask for an order, which
both sets take from the same documents. -/
structure Alike (counted : Bool) (D : DocumentId → Option Document) (s t : NodeSet) : Prop where
  perm : (s.nodes.map (NodeRef.trace counted)).Perm (t.nodes.map (NodeRef.trace counted))
  nodup : (s.nodes.map (·.key)).Nodup
  left : counted → s.LiesIn D
  right : counted → t.LiesIn D

namespace Alike

theorem perm_key (h : Alike counted D s t) :
    (s.nodes.map (·.key)).Perm (t.nodes.map (·.key)) := by
  have hfst (nodes : List NodeRef) :
      (nodes.map (NodeRef.trace counted)).map (·.1) = nodes.map (·.key) := List.map_map
  rw [← hfst, ← hfst]
  exact h.perm.map _

theorem mem_iff (h : Alike counted D s t) {key : DocumentId × Nat} : key ∈ s ↔ key ∈ t := by
  rw [← mem_map_key_nodes, ← mem_map_key_nodes]
  exact h.perm_key.mem_iff

theorem refl (hs : (s.nodes.map (·.key)).Nodup) (hlies : counted → s.LiesIn D) :
    Alike counted D s s := ⟨.refl _, hs, hlies, hlies⟩

theorem symm (h : Alike counted D s t) : Alike counted D t s :=
  ⟨h.perm.symm, h.perm_key.nodup_iff.mp h.nodup, h.right, h.left⟩

theorem trans {u : NodeSet} (h : Alike counted D s t) (h' : Alike counted D t u) :
    Alike counted D s u :=
  ⟨h.perm.trans h'.perm, h.nodup, h.left, h'.right⟩

/-- Lists of the same traces make alike sets. -/
theorem ofList {xs ys : List NodeRef}
    (h : xs.map (NodeRef.trace counted) = ys.map (NodeRef.trace counted))
    (hnodup : (xs.map (·.key)).Nodup)
    (hxs : counted → ∀ node ∈ xs, D node.doc.id = some node.doc)
    (hys : counted → ∀ node ∈ ys, D node.doc.id = some node.doc) :
    Alike counted D (.ofList xs) (.ofList ys) := by
  have hperm := perm_nodes_ofList hnodup
  have hnodup' : (ys.map (·.key)).Nodup := NodeRef.map_key_of_map_trace h ▸ hnodup
  refine ⟨?_, ?_, fun hcounted => .ofList (hxs hcounted), fun hcounted => .ofList (hys hcounted)⟩
  · refine (hperm.map _).trans ?_
    rw [h]
    exact ((perm_nodes_ofList hnodup').map _).symm
  · exact (hperm.map _).nodup_iff.mpr hnodup

/-- By identifier, alike sets are listed alike. -/
theorem map_trace_sort (h : Alike counted D s t) :
    s.sort.nodes.map (NodeRef.trace counted) = t.sort.nodes.map (NodeRef.trace counted) := by
  have hs := (perm_nodes_sort h.nodup).map (NodeRef.trace counted)
  have ht := (perm_nodes_sort h.symm.nodup).map (NodeRef.trace counted)
  exact @map_eq_of_perm _ _ (fun _ => rfl) (fun _ a b => a < b) (fun _ _ _ => Nat.lt_asymm) _ _
    (hs.trans (h.perm.trans ht.symm)) (pairwise_nodes_of_order_byId s.sort_order)
    (pairwise_nodes_of_order_byId t.sort_order)

/-- In document order, sets that refer to the same documents are listed alike. -/
theorem map_trace_toDocumentOrder (h : Alike counted D s t) (hcounted : counted) :
    s.toDocumentOrder.map (NodeRef.trace counted) =
      t.toDocumentOrder.map (NodeRef.trace counted) := by
  have hs := (perm_toDocumentOrder h.nodup).map (NodeRef.trace counted)
  have ht := (perm_toDocumentOrder h.symm.nodup).map (NodeRef.trace counted)
  exact map_eq_of_perm (fun _ => rfl) (fun _ _ _ hab => hab.asymm)
    (hs.trans (h.perm.trans ht.symm)) (h.left hcounted).pairwise_toDocumentOrder
    (h.right hcounted).pairwise_toDocumentOrder

/-- Sets that hold the same are alike; if positions count, they must also remember the same. -/
theorem of_recalls (hs : (s.nodes.map (·.key)).Nodup) (ht : (t.nodes.map (·.key)).Nodup)
    (hmem : ∀ key, key ∈ s ↔ key ∈ t)
    (hrecalls : counted → s.RecallsOnce ∧ t.RecallsOnce ∧
      ∀ key c, s.Recalls key c ↔ t.Recalls key c)
    (hlies : counted → s.LiesIn D ∧ t.LiesIn D) : Alike counted D s t := by
  have hnodup {u : NodeSet} (hu : (u.nodes.map (·.key)).Nodup) :
      (u.nodes.map (NodeRef.trace counted)).Nodup :=
    List.pairwise_map.mpr ((List.pairwise_map.mp hu).imp fun hne heq =>
      hne (congrArg Prod.fst heq))
  have hperm :
      (s.nodes.map (NodeRef.trace counted)).Perm (t.nodes.map (NodeRef.trace counted)) := by
    refine (List.perm_ext_iff_of_nodup (hnodup hs) (hnodup ht)).mpr fun x => ⟨?_, ?_⟩
    · intro hx
      exact mem_map_trace_of_recalls hs ht hmem hrecalls hx
    · intro hx
      exact mem_map_trace_of_recalls ht hs (fun key => (hmem key).symm)
        (fun hcounted => ⟨(hrecalls hcounted).2.1, (hrecalls hcounted).1,
          fun key c => ((hrecalls hcounted).2.2 key c).symm⟩) hx
  exact ⟨hperm, hs, fun hcounted => (hlies hcounted).1, fun hcounted => (hlies hcounted).2⟩

end Alike

end NodeSet

end TreeAxes
