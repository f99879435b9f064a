import Mathlib.Data.Finset.Dedup
import TreeAxes.Proofs.NodeSet.Alike
import TreeAxes.Proofs.Step.Reach

/-!
# What a search gathers

However a search goes about it, it gathers the stored nodes that a relation reaches from its
context nodes, as far as they are asked for: `Gathers`. A gathered node comes from every context
node that it is reached from, and remembers what each of these hands on: `KeepsOrigins`. Of a set
that is known to do both, nothing else can be asked but the order of its nodes.
-/

namespace TreeAxes

variable {store : Store} {d : StoredDocument} {relation : Relation} {kind : NodeKind}
  {contexts : List NodeRef} {key : DocumentId × Nat} {remember : Bool} {c : ContextNode}

namespace NodeRef

/-- Whether a context node leaves something with the nodes that are reached from it: itself, if
they remember it, otherwise what it remembers. -/
def HandsOn (anchor : NodeRef) (remember : Bool) (c : ContextNode) : Prop :=
  if remember then c = anchor.asContext else c ∈ anchor.context

/-- What can be told of a found node: which it is, its kind and, as a set, what it remembers. -/
def account (node : NodeRef) : (DocumentId × Nat) × NodeKind × Finset ContextNode :=
  (node.key, node.kind, node.context.toFinset)

theorem mem_context_reachedFrom_blank {node anchor : NodeRef} (hblank : node.context = []) :
    c ∈ (node.reachedFrom anchor remember).context ↔ anchor.HandsOn remember c := by
  rw [mem_context_reachedFrom, hblank, HandsOn]
  simp

theorem mem_context_pushContexts {node : NodeRef} {cs : List ContextNode} :
    c ∈ (node.pushContexts cs).context ↔ c ∈ node.context ∨ c ∈ cs := by
  rw [pushContexts_eq_foldl]
  induction cs generalizing node with
  | nil => simp
  | cons first cs ih => rw [List.foldl_cons, ih, mem_context_pushContext, List.mem_cons, or_assoc]

@[simp] theorem reachedFrom_key (node anchor : NodeRef) (remember : Bool) :
    (node.reachedFrom anchor remember).key = node.key := by simp [key]

theorem StoredIn.kind_eq {node : NodeRef} (hnode : node.StoredIn store) (h : store.Sound)
    (hd : d ∈ store.documents) (hid : d.doc.id = node.doc.id) (hholds : d.Holds ⟨node.id, kind⟩) :
    kind = node.kind := by
  obtain ⟨e, he, hdoc, hown⟩ := hnode
  obtain rfl : d = e := h.eq_of_id hd he (by rw [hid, hdoc])
  exact hholds.kind_eq (h.identifies hd) hown rfl

end NodeRef

namespace Store

/-- What is reached is reached from some context node. -/
theorem reaches_iff_exists :
    store.Reaches relation kind contexts key ↔
      ∃ anchor ∈ contexts, store.Reaches relation kind [anchor] key := by
  constructor
  · rintro ⟨d, hd, hid, hholds, anchor, hanchor, hrest⟩
    exact ⟨anchor, hanchor, d, hd, hid, hholds, anchor, List.mem_singleton_self anchor, hrest⟩
  · rintro ⟨anchor, hanchor, d, hd, hid, hholds, other, hother, hrest⟩
    obtain rfl := List.mem_singleton.mp hother
    exact ⟨d, hd, hid, hholds, other, hanchor, hrest⟩

/-- From a node of one document, only that document counts. -/
theorem reaches_singleton_iff (h : store.Sound) (hd : d ∈ store.documents) {anchor : NodeRef}
    (hdoc : anchor.doc = d.doc) :
    store.Reaches relation kind [anchor] key ↔
      d.doc.id = key.1 ∧ d.Holds ⟨key.2, kind⟩ ∧ relation.Admits anchor.kind kind ∧
        relation.Relates d.doc.numbering anchor.id key.2 := by
  constructor
  · rintro ⟨e, he, hid, hholds, other, hother, hoid, hrest⟩
    obtain rfl := List.mem_singleton.mp hother
    obtain rfl : e = d := h.eq_of_id he hd (by rw [hid, ← hoid, hdoc])
    exact ⟨hid, hholds, hrest⟩
  · rintro ⟨hid, hholds, hrest⟩
    exact ⟨d, hd, hid, hholds, anchor, List.mem_singleton_self anchor, by rw [hdoc, hid], hrest⟩

theorem Reaches.kind_eq {node : NodeRef} (h : store.Reaches relation kind contexts node.key)
    (hstore : store.Sound) (hnode : node.StoredIn store) : kind = node.kind := by
  obtain ⟨d, hd, hid, hholds, -⟩ := h
  exact hnode.kind_eq hstore hd hid hholds

/-- From context nodes that are the same but for what they remember, the same is reached. -/
theorem Reaches.mono {others : List NodeRef} (h : store.Reaches relation kind contexts key)
    (hsame : ∀ context ∈ contexts, ∃ other ∈ others,
      other.doc = context.doc ∧ other.id = context.id ∧ other.kind = context.kind) :
    store.Reaches relation kind others key := by
  obtain ⟨d, hd, hid, hkind, context, hcontext, hcid, hadmits, hrelates⟩ := h
  obtain ⟨other, hother, hdoc, hoid, hokind⟩ := hsame context hcontext
  exact ⟨d, hd, hid, hkind, other, hother, by rw [hdoc, hcid], hokind ▸ hadmits,
    hoid ▸ hrelates⟩

/-- From two stored sets that hold the same nodes, the same is reached. -/
theorem reaches_congr (h : store.Sound) {s t : NodeSet} (hs : s.StoredIn store)
    (ht : t.StoredIn store) (hsame : ∀ key, key ∈ s ↔ key ∈ t) :
    store.Reaches relation kind s.nodes key ↔ store.Reaches relation kind t.nodes key :=
  ⟨fun hreaches => hreaches.mono fun _ hcontext => hs.exists_same ht h hsame hcontext,
    fun hreaches => hreaches.mono fun _ hcontext =>
      ht.exists_same hs h (fun key => (hsame key).symm) hcontext⟩

end Store

namespace NodeSet

/-- A set of the stored nodes that a relation reaches, as far as they are asked for. -/
structure Gathers (found : NodeSet) (store : Store) (relation : Relation)
    (contexts : List NodeRef) (asked : DocumentId × Nat → NodeKind → Prop) : Prop where
  stored : found.StoredIn store
  mem_iff : ∀ key, key ∈ found ↔
    ∃ kind, asked key kind ∧ store.Reaches relation kind contexts key

/-- A gathered set that recalls what all context nodes hand on to the nodes reached from them. -/
structure KeepsOrigins (found : NodeSet) (store : Store) (relation : Relation)
    (contexts : List NodeRef) (asked : DocumentId × Nat → NodeKind → Prop)
    (hands : NodeRef → DocumentId × Nat → ContextNode → Prop) : Prop
    extends found.Gathers store relation contexts asked where
  recalls_iff : ∀ key c, found.Recalls key c ↔
    ∃ kind, asked key kind ∧
      ∃ anchor ∈ contexts, store.Reaches relation kind [anchor] key ∧ hands anchor key c

variable {found : NodeSet} {asked : DocumentId × Nat → NodeKind → Prop}
  {hands : NodeRef → DocumentId × Nat → ContextNode → Prop} {refs : List NodeRef}
  {node : NodeRef}

/-! ## Nodes of gathered sets -/

theorem exists_mem_nodes_sort (h : key ∈ found) : ∃ node ∈ found.sort.nodes, node.key = key :=
  mem_iff_exists_node.mp (mem_sort.mpr h)

theorem Gathers.of_mem_sort (h : found.Gathers store relation contexts asked)
    (hstore : store.Sound) (hnode : node ∈ found.sort.nodes) :
    asked node.key node.kind ∧ store.Reaches relation node.kind contexts node.key := by
  have hmem : node.key ∈ found := mem_sort.mp (mem_iff_exists_node.mpr ⟨node, hnode, rfl⟩)
  obtain ⟨kind, hasked, hreaches⟩ := (h.mem_iff node.key).mp hmem
  obtain rfl := hreaches.kind_eq hstore (h.stored.sort.of_mem_nodes hnode)
  exact ⟨hasked, hreaches⟩

/-- A node remembers what is handed on to it by the context nodes that it is reached from. -/
theorem KeepsOrigins.mem_context_iff
    (h : found.KeepsOrigins store relation contexts asked hands) (hstore : store.Sound)
    (hnode : node ∈ found.sort.nodes) :
    c ∈ node.context ↔
      ∃ anchor ∈ contexts, store.Reaches relation node.kind [anchor] node.key ∧
        hands anchor node.key c := by
  rw [mem_context_sort_iff hnode, h.recalls_iff]
  constructor
  · rintro ⟨kind, -, anchor, hanchor, hreaches, hc⟩
    obtain rfl := hreaches.kind_eq hstore (h.stored.sort.of_mem_nodes hnode)
    exact ⟨anchor, hanchor, hreaches, hc⟩
  · intro hc
    exact ⟨node.kind, (h.toGathers.of_mem_sort hstore hnode).1, hc⟩

/-- What is known of the nodes of a set that keeps origins is all that can be told of them. -/
theorem KeepsOrigins.mem_map_account_iff
    (h : found.KeepsOrigins store relation contexts asked hands) (hstore : store.Sound)
    {account : (DocumentId × Nat) × NodeKind × Finset ContextNode} :
    account ∈ found.sort.nodes.map NodeRef.account ↔
      asked account.1 account.2.1 ∧ store.Reaches relation account.2.1 contexts account.1 ∧
        ∀ c, c ∈ account.2.2 ↔
          ∃ anchor ∈ contexts, store.Reaches relation account.2.1 [anchor] account.1 ∧
            hands anchor account.1 c := by
  constructor
  · intro haccount
    obtain ⟨node, hnode, rfl⟩ := List.mem_map.mp haccount
    obtain ⟨hasked, hreaches⟩ := h.toGathers.of_mem_sort hstore hnode
    refine ⟨hasked, hreaches, fun c => ?_⟩
    exact List.mem_toFinset.trans (h.mem_context_iff hstore hnode)
  · rintro ⟨hasked, hreaches, hcontext⟩
    obtain ⟨key, kind, context⟩ := account
    obtain ⟨node, hnode, rfl⟩ :=
      exists_mem_nodes_sort ((h.mem_iff key).mpr ⟨kind, hasked, hreaches⟩)
    obtain rfl := hreaches.kind_eq hstore (h.stored.sort.of_mem_nodes hnode)
    refine List.mem_map.mpr ⟨node, hnode, ?_⟩
    have hsame : node.context.toFinset = context := by
      ext c
      rw [List.mem_toFinset, h.mem_context_iff hstore hnode, hcontext]
    rw [NodeRef.account, hsame]

theorem nodup_map_account {nodes : List NodeRef}
    (h : nodes.Pairwise fun a b => KeyBefore (fun _ a b => a < b) a.key b.key) :
    (nodes.map NodeRef.account).Nodup := by
  refine List.pairwise_map.mpr (h.imp fun {a b} hab heq => ?_)
  have hkey : a.key = b.key := congrArg Prod.fst heq
  rw [hkey] at hab
  exact KeyBefore.asymm (fun _ _ _ => Nat.lt_asymm) hab hab

theorem mem_map_account_filter {nodes : List NodeRef} {passes : NodeKind → Bool}
    {account : (DocumentId × Nat) × NodeKind × Finset ContextNode} :
    account ∈ (nodes.filter (passes ·.kind)).map NodeRef.account ↔
      passes account.2.1 ∧ account ∈ nodes.map NodeRef.account := by
  simp only [List.mem_map, List.mem_filter]
  constructor
  · rintro ⟨node, ⟨hnode, hpasses⟩, rfl⟩
    exact ⟨hpasses, node, hnode, rfl⟩
  · rintro ⟨hpasses, node, hnode, rfl⟩
    exact ⟨node, ⟨hnode, hpasses⟩, rfl⟩

/-- Sets that keep the same origins tell the same of the nodes that both are asked for. -/
theorem KeepsOrigins.map_account_eq {other : NodeSet} {asked' : DocumentId × Nat → NodeKind → Prop}
    (h : found.KeepsOrigins store relation contexts asked hands)
    (h' : other.KeepsOrigins store relation contexts asked' hands) (hstore : store.Sound)
    {passes : NodeKind → Bool}
    (hasked : ∀ key kind, store.Reaches relation kind contexts key →
      (asked key kind ↔ passes kind ∧ asked' key kind)) :
    found.sort.nodes.map NodeRef.account =
      (other.sort.nodes.filter (passes ·.kind)).map NodeRef.account := by
  have hordered (s : NodeSet) :
      s.sort.nodes.Pairwise fun a b => KeyBefore (fun _ a b => a < b) a.key b.key :=
    pairwise_nodes_of_order_byId s.sort_order
  have hpassed := (hordered other).filter (passes ·.kind)
  have hperm : (found.sort.nodes.map NodeRef.account).Perm
      ((other.sort.nodes.filter (passes ·.kind)).map NodeRef.account) := by
    refine (List.perm_ext_iff_of_nodup (nodup_map_account (hordered found))
      (nodup_map_account hpassed)).mpr fun account => ?_
    rw [mem_map_account_filter, h.mem_map_account_iff hstore, h'.mem_map_account_iff hstore]
    constructor
    · rintro ⟨hown, hreaches, hcontext⟩
      obtain ⟨hpasses, hother⟩ := (hasked _ _ hreaches).mp hown
      exact ⟨hpasses, hother, hreaches, hcontext⟩
    · rintro ⟨hpasses, hother, hreaches, hcontext⟩
      exact ⟨(hasked _ _ hreaches).mpr ⟨hpasses, hother⟩, hreaches, hcontext⟩
  exact map_eq_of_perm (fun _ => rfl) (fun _ _ _ => Nat.lt_asymm) hperm (hordered found) hpassed

/-! ## Nodes found from one context node after the other -/

/-- What one context node contributes: references to what is reached from it. -/
structure Contributes (store : Store) (relation : Relation)
    (asked : DocumentId × Nat → NodeKind → Prop) (anchor : NodeRef) (refs : List NodeRef) :
    Prop where
  sound : ∀ ref ∈ refs, ref.StoredIn store ∧ asked ref.key ref.kind ∧
    store.Reaches relation ref.kind [anchor] ref.key
  complete : ∀ key kind, asked key kind → store.Reaches relation kind [anchor] key →
    ∃ ref ∈ refs, ref.key = key

namespace Contributes

variable {anchor : NodeRef}

/-- References into the document of the context node can be looked at in that document. -/
theorem of_stored (hstore : store.Sound) (hd : d ∈ store.documents) (hdoc : anchor.doc = d.doc)
    (sound : ∀ ref ∈ refs, ref.doc = d.doc ∧ d.Holds ⟨ref.id, ref.kind⟩ ∧
      asked ref.key ref.kind ∧ relation.Admits anchor.kind ref.kind ∧
        relation.Relates d.doc.numbering anchor.id ref.id)
    (complete : ∀ slot : Slot, d.Holds slot → asked (d.doc.id, slot.id) slot.kind →
      relation.Admits anchor.kind slot.kind →
        relation.Relates d.doc.numbering anchor.id slot.id →
          ∃ ref ∈ refs, ref.doc = d.doc ∧ ref.id = slot.id) :
    Contributes store relation asked anchor refs where
  sound ref href := by
    obtain ⟨hrdoc, hholds, hasked, hrelated⟩ := sound ref href
    refine ⟨⟨d, hd, hrdoc, hholds⟩, hasked, ?_⟩
    rw [Store.reaches_singleton_iff hstore hd hdoc]
    exact ⟨congrArg Document.id hrdoc.symm, hholds, hrelated⟩
  complete key kind hasked hreaches := by
    obtain ⟨doc, id⟩ := key
    obtain ⟨rfl, hholds, hadmits, hrelates⟩ :=
      (Store.reaches_singleton_iff hstore hd hdoc).mp hreaches
    obtain ⟨ref, href, hrdoc, hrid⟩ := complete ⟨id, kind⟩ hholds hasked hadmits hrelates
    exact ⟨ref, href, Prod.ext (congrArg Document.id hrdoc) hrid⟩

/-- Marking references as reached from a node does not make them others. -/
theorem map_reachedFrom (h : Contributes store relation asked anchor refs) (remember : Bool) :
    Contributes store relation asked anchor (refs.map (·.reachedFrom anchor remember)) where
  sound ref href := by
    obtain ⟨other, hother, rfl⟩ := List.mem_map.mp href
    simpa [NodeRef.StoredIn] using h.sound other hother
  complete key kind hasked hreaches := by
    obtain ⟨ref, href, hkey⟩ := h.complete key kind hasked hreaches
    exact ⟨_, List.mem_map_of_mem href, (ref.reachedFrom_key anchor remember).trans hkey⟩

end Contributes

section

variable (hstore : store.Sound) {produced : NodeRef → List NodeRef}
  (hproduced : ∀ anchor ∈ contexts, Contributes store relation asked anchor (produced anchor))

include hstore hproduced

/-- Contributions can be looked at one by one. -/
theorem gathers_ofList_flatMap :
    (ofList (contexts.flatMap produced)).Gathers store relation contexts asked where
  stored := by
    refine storedIn_ofList hstore fun ref href => ?_
    obtain ⟨anchor, hanchor, href⟩ := List.mem_flatMap.mp href
    exact ((hproduced anchor hanchor).sound ref href).1
  mem_iff key := by
    rw [mem_ofList]
    constructor
    · rintro ⟨ref, href, rfl⟩
      obtain ⟨anchor, hanchor, href⟩ := List.mem_flatMap.mp href
      obtain ⟨-, hasked, hreaches⟩ := (hproduced anchor hanchor).sound ref href
      exact ⟨ref.kind, hasked, Store.reaches_iff_exists.mpr ⟨anchor, hanchor, hreaches⟩⟩
    · rintro ⟨kind, hasked, hreaches⟩
      obtain ⟨anchor, hanchor, hreaches⟩ := Store.reaches_iff_exists.mp hreaches
      obtain ⟨ref, href, hkey⟩ := (hproduced anchor hanchor).complete key kind hasked hreaches
      exact ⟨ref, List.mem_flatMap.mpr ⟨anchor, hanchor, href⟩, hkey.symm⟩

/-- If each reference remembers what its own context node hands on, all origins are kept: the
copies of a node come from different context nodes. -/
theorem keepsOrigins_ofList_flatMap
    (hcontext : ∀ anchor ∈ contexts, ∀ ref ∈ produced anchor, ∀ c,
      c ∈ ref.context ↔ hands anchor ref.key c) :
    (ofList (contexts.flatMap produced)).KeepsOrigins store relation contexts asked hands where
  toGathers := gathers_ofList_flatMap hstore hproduced
  recalls_iff key c := by
    rw [recalls_ofList]
    constructor
    · rintro ⟨ref, href, rfl, hc⟩
      obtain ⟨anchor, hanchor, href⟩ := List.mem_flatMap.mp href
      obtain ⟨-, hasked, hreaches⟩ := (hproduced anchor hanchor).sound ref href
      exact ⟨ref.kind, hasked, anchor, hanchor, hreaches,
        (hcontext anchor hanchor ref href c).mp hc⟩
    · rintro ⟨kind, hasked, anchor, hanchor, hreaches, hc⟩
      obtain ⟨ref, href, rfl⟩ := (hproduced anchor hanchor).complete key kind hasked hreaches
      exact ⟨ref, List.mem_flatMap.mpr ⟨anchor, hanchor, href⟩, rfl,
        (hcontext anchor hanchor ref href c).mpr hc⟩

end

/-- References that remember nothing keep their origins once they are marked as reached. -/
theorem keepsOrigins_reachedFrom (hstore : store.Sound) {produced : NodeRef → List NodeRef}
    (hproduced : ∀ anchor ∈ contexts,
      Contributes store relation asked anchor (produced anchor))
    (hblank : ∀ anchor, ∀ ref ∈ produced anchor, ref.context = []) :
    (ofList (contexts.flatMap fun anchor =>
      (produced anchor).map (·.reachedFrom anchor remember))).KeepsOrigins store relation contexts
        asked fun anchor _ c => anchor.HandsOn remember c := by
  refine keepsOrigins_ofList_flatMap hstore
    (fun anchor hanchor => (hproduced anchor hanchor).map_reachedFrom remember) ?_
  intro anchor _ ref href c
  obtain ⟨other, hother, rfl⟩ := List.mem_map.mp href
  exact NodeRef.mem_context_reachedFrom_blank (hblank anchor other hother)

/-- References that each remember what all their context nodes hand on keep all origins. -/
theorem Gathers.keepsOrigins (h : (ofList refs).Gathers store relation contexts asked)
    (hstore : store.Sound)
    (hcontext : ∀ ref ∈ refs, ∀ c, c ∈ ref.context ↔
      ∃ anchor ∈ contexts, store.Reaches relation ref.kind [anchor] ref.key ∧
        hands anchor ref.key c)
    (hstored : ∀ ref ∈ refs, ref.StoredIn store) :
    (ofList refs).KeepsOrigins store relation contexts asked hands where
  toGathers := h
  recalls_iff key c := by
    have hasked {ref : NodeRef} (href : ref ∈ refs) : asked ref.key ref.kind := by
      obtain ⟨kind, hasked, hreaches⟩ := (h.mem_iff ref.key).mp (mem_ofList.mpr ⟨ref, href, rfl⟩)
      obtain rfl := hreaches.kind_eq hstore (hstored ref href)
      exact hasked
    rw [recalls_ofList]
    constructor
    · rintro ⟨ref, href, rfl, hc⟩
      exact ⟨ref.kind, hasked href, (hcontext ref href c).mp hc⟩
    · rintro ⟨kind, hasked, anchor, hanchor, hreaches, hc⟩
      have hmem := (h.mem_iff key).mpr
        ⟨kind, hasked, Store.reaches_iff_exists.mpr ⟨anchor, hanchor, hreaches⟩⟩
      obtain ⟨ref, href, rfl⟩ := mem_ofList.mp hmem
      obtain rfl := hreaches.kind_eq hstore (hstored ref href)
      exact ⟨ref, href, rfl, (hcontext ref href c).mpr ⟨anchor, hanchor, hreaches, hc⟩⟩

theorem Gathers.sort (h : found.Gathers store relation contexts asked) :
    found.sort.Gathers store relation contexts asked :=
  ⟨h.stored.sort, fun key => mem_sort.trans (h.mem_iff key)⟩

theorem KeepsOrigins.sort (h : found.KeepsOrigins store relation contexts asked hands) :
    found.sort.KeepsOrigins store relation contexts asked hands :=
  ⟨h.toGathers.sort, fun key c => recalls_sort.trans (h.recalls_iff key c)⟩

/-- What is asked for matters only where something is reached. -/
theorem Gathers.congr {asked' : DocumentId × Nat → NodeKind → Prop}
    (h : found.Gathers store relation contexts asked)
    (hasked : ∀ key kind, store.Reaches relation kind contexts key →
      (asked key kind ↔ asked' key kind)) :
    found.Gathers store relation contexts asked' where
  stored := h.stored
  mem_iff key := (h.mem_iff key).trans
    (exists_congr fun kind => and_congr_left fun hreaches => hasked key kind hreaches)

theorem KeepsOrigins.congr {asked' : DocumentId × Nat → NodeKind → Prop}
    {hands' : NodeRef → DocumentId × Nat → ContextNode → Prop}
    (h : found.KeepsOrigins store relation contexts asked hands)
    (hasked : ∀ key kind, store.Reaches relation kind contexts key →
      (asked key kind ↔ asked' key kind))
    (hhands : ∀ anchor key c, hands anchor key c ↔ hands' anchor key c) :
    found.KeepsOrigins store relation contexts asked' hands' where
  toGathers := h.toGathers.congr hasked
  recalls_iff key c := by
    rw [h.recalls_iff]
    refine exists_congr fun kind => ?_
    simp only [hhands]
    refine and_congr_left ?_
    rintro ⟨anchor, hanchor, hreaches, -⟩
    exact hasked key kind (Store.reaches_iff_exists.mpr ⟨anchor, hanchor, hreaches⟩)

/-! ## Joins -/

section

variable {candidates input : NodeSet} (hstore : store.Sound)
  (hcandidates : candidates.StoredIn store) (hinput : input.StoredIn store)

include hstore hcandidates hinput

/-- A join pairs a candidate with the context nodes that it is reached from. -/
theorem paired_iff_reaches {anchor candidate : NodeRef} (hanchor : anchor ∈ input.nodes)
    (hcandidate : candidate ∈ candidates.sort.nodes) :
    Paired relation (store.numbering anchor.doc.id) anchor candidate ↔
      store.Reaches relation candidate.kind [anchor] candidate.key := by
  obtain ⟨d, hd, hdoc, -⟩ := hinput.of_mem_nodes hanchor
  obtain ⟨e, he, hcdoc, hholds⟩ := hcandidates.sort.of_mem_nodes hcandidate
  rw [Store.reaches_singleton_iff hstore hd hdoc, Paired, hdoc, hstore.numbering_eq hd]
  constructor
  · rintro ⟨hid, hrelated⟩
    obtain rfl : e = d := hstore.eq_of_id he hd (by rw [← hcdoc, hid])
    exact ⟨hid.symm, hholds, hrelated⟩
  · rintro ⟨hid, -, hrelated⟩
    exact ⟨hid.symm, hrelated⟩

/-- A join of stored nodes gathers the candidates that the relation reaches. -/
theorem gathers_select :
    (candidates.select input relation remember).1.Gathers store relation input.nodes
      fun key _ => key ∈ candidates where
  stored := by
    refine storedIn_ofList hstore fun ref href => ?_
    obtain ⟨anchor, -, href⟩ := List.mem_flatMap.mp href
    obtain ⟨candidate, hcandidate, rfl⟩ := exists_of_mem_relatedTo href
    have hstored := hcandidates.sort.of_mem_nodes hcandidate
    rw [NodeRef.StoredIn] at hstored ⊢
    simpa using hstored
  mem_iff key := by
    rw [mem_select_iff store.numbering (fun _ _ => hcandidates.numberedBy hstore _)
      (fun anchor hanchor => (hinput.numberedBy hstore _).numbers anchor hanchor rfl)
      (.inr fun _ hanchor => hinput.numbering_eq hstore hanchor)]
    constructor
    · rintro ⟨node, hnode, rfl, anchor, hanchor, hpaired⟩
      rw [paired_iff_reaches hstore hcandidates hinput hanchor hnode] at hpaired
      exact ⟨node.kind, mem_sort.mp (mem_iff_exists_node.mpr ⟨node, hnode, rfl⟩),
        Store.reaches_iff_exists.mpr ⟨anchor, hanchor, hpaired⟩⟩
    · rintro ⟨kind, hcandidate, hreaches⟩
      obtain ⟨node, hnode, rfl⟩ := exists_mem_nodes_sort hcandidate
      obtain rfl := hreaches.kind_eq hstore (hcandidates.sort.of_mem_nodes hnode)
      obtain ⟨anchor, hanchor, hreaches⟩ := Store.reaches_iff_exists.mp hreaches
      exact ⟨node, hnode, rfl, anchor, hanchor,
        (paired_iff_reaches hstore hcandidates hinput hanchor hnode).mpr hreaches⟩

/-- Candidates that remember nothing come out of a join with what is handed on to them. -/
theorem keepsOrigins_select (hblank : ∀ candidate ∈ candidates.nodes, candidate.context = []) :
    (candidates.select input relation remember).1.KeepsOrigins store relation input.nodes
      (fun key _ => key ∈ candidates) fun anchor _ c => anchor.HandsOn remember c where
  toGathers := gathers_select hstore hcandidates hinput
  recalls_iff key c := by
    have hblank {node : NodeRef} (hnode : node ∈ candidates.sort.nodes) : node.context = [] := by
      refine List.eq_nil_iff_forall_not_mem.mpr fun k hk => ?_
      obtain ⟨copy, hcopy, -, hk⟩ := recalls_sort.mp ⟨node, hnode, rfl, hk⟩
      rw [hblank copy hcopy] at hk
      cases hk
    rw [recalls_select_iff store.numbering (fun _ _ => hcandidates.numberedBy hstore _)
      (fun anchor hanchor => (hinput.numberedBy hstore _).numbers anchor hanchor rfl)
      (.inr fun _ hanchor => hinput.numbering_eq hstore hanchor)]
    constructor
    · rintro ⟨node, hnode, rfl, anchor, hanchor, hpaired, hc⟩
      rw [paired_iff_reaches hstore hcandidates hinput hanchor hnode] at hpaired
      exact ⟨node.kind, mem_sort.mp (mem_iff_exists_node.mpr ⟨node, hnode, rfl⟩), anchor, hanchor,
        hpaired, (NodeRef.mem_context_reachedFrom_blank (hblank hnode)).mp hc⟩
    · rintro ⟨kind, hcandidate, anchor, hanchor, hreaches, hc⟩
      obtain ⟨node, hnode, rfl⟩ := exists_mem_nodes_sort hcandidate
      obtain rfl := hreaches.kind_eq hstore (hcandidates.sort.of_mem_nodes hnode)
      exact ⟨node, hnode, rfl, anchor, hanchor,
        (paired_iff_reaches hstore hcandidates hinput hanchor hnode).mpr hreaches,
        (NodeRef.mem_context_reachedFrom_blank (hblank hnode)).mpr hc⟩

end

end NodeSet

/-! ## Scans -/

namespace Store

/-- Whether an index lists a node, of the kind that it is for, under a name in some documents. -/
def Lists (store : Store) (indexed : IndexedKind) (name : QName) (docs : DocumentSet)
    (key : DocumentId × Nat) (kind : NodeKind) : Prop :=
  kind = indexed.nodeKind ∧ key.1 ∈ docs.ids ∧ store.IsNamed name key

end Store

namespace NodeSet

variable {input : NodeSet} {indexed : IndexedKind} {name : QName} {docs : DocumentSet}

/-- A scan without a selector gives what the index lists. -/
theorem mem_scanned_iff_lists (hstore : store.Sound)
    (hreaches : store.Reaches relation kind contexts key) :
    key ∈ ofList (docs.ids.flatMap (store.hitsIn ⟨indexed, name, none⟩)) ↔
      store.Lists indexed name docs key kind := by
  obtain ⟨d, hd, hid, hholds, -⟩ := hreaches
  simp only [mem_ofList, List.mem_flatMap, ScanRequest.mem_hitsIn_iff hstore]
  constructor
  · rintro ⟨ref, ⟨doc, hdoc, e, he, rfl, node, hnode, hnamed, hkind, hadmit⟩, rfl⟩
    rw [← Option.some_inj.mp hadmit] at hid hholds ⊢
    obtain rfl : d = e := hstore.eq_of_id hd he hid
    have hown : d.Holds ⟨node.id, node.kind⟩ := ⟨node, hnode, rfl, rfl⟩
    have hsame : kind = node.kind := hholds.kind_eq (hstore.identifies hd) hown rfl
    exact ⟨hsame.trans hkind, hdoc, hnamed⟩
  · rintro ⟨rfl, hdoc, hnamed⟩
    obtain ⟨node, hnode, hnid, hkind⟩ := hholds
    obtain rfl : key = (d.doc.id, node.id) := Prod.ext hid.symm hnid.symm
    exact ⟨d.ref node, ⟨d.doc.id, hdoc, d, hd, rfl, node, hnode, hnamed, hkind, rfl⟩, rfl⟩

section

variable (hstore : store.Sound) (hinput : input.StoredIn store)

include hstore

theorem storedIn_hits (request : ScanRequest) :
    (ofList (docs.ids.flatMap (store.hitsIn request))).StoredIn store := by
  refine storedIn_ofList hstore fun ref href => ?_
  obtain ⟨doc, -, href⟩ := List.mem_flatMap.mp href
  exact ScanRequest.storedIn_of_mem_hitsIn hstore href

include hinput

/-- Joined with all nodes that an index lists, the input gives those of them that are reached. -/
theorem gathers_joined :
    ((ofList (docs.ids.flatMap (store.hitsIn ⟨indexed, name, none⟩))).select input relation
      remember).1.Gathers store relation input.nodes (store.Lists indexed name docs) :=
  (gathers_select hstore (storedIn_hits hstore _) hinput).congr fun _ _ hreaches =>
    mem_scanned_iff_lists hstore hreaches

theorem keepsOrigins_joined :
    ((ofList (docs.ids.flatMap (store.hitsIn ⟨indexed, name, none⟩))).select input relation
      remember).1.KeepsOrigins store relation input.nodes (store.Lists indexed name docs)
        fun anchor _ c => anchor.HandsOn remember c := by
  have hblank : ∀ candidate ∈ (ofList (docs.ids.flatMap
      (store.hitsIn ⟨indexed, name, none⟩))).nodes, candidate.context = [] := by
    intro candidate hcandidate
    refine List.eq_nil_iff_forall_not_mem.mpr fun c hc => ?_
    obtain ⟨ref, href, -, hc⟩ := recalls_ofList.mp ⟨candidate, hcandidate, rfl, hc⟩
    obtain ⟨doc, -, href⟩ := List.mem_flatMap.mp href
    rw [ScanRequest.context_of_mem_hitsIn href] at hc
    cases hc
  exact (keepsOrigins_select hstore (storedIn_hits hstore _) hinput hblank).congr
    (fun _ _ hreaches => mem_scanned_iff_lists hstore hreaches) fun _ _ _ => Iff.rfl

section

variable (hback : relation.looksBack)

include hback

/-- A scan with a selector gathers what is reached of what an index lists. -/
theorem gathers_selected :
    (ofList (docs.ids.flatMap (store.hitsIn
      ⟨indexed, name, some (.ofContext relation input remember)⟩))).Gathers store relation
        input.nodes (store.Lists indexed name docs) where
  stored := storedIn_hits hstore _
  mem_iff key := by
    simp only [mem_ofList, List.mem_flatMap, ScanRequest.mem_hitsIn_iff hstore]
    constructor
    · rintro ⟨ref, ⟨doc, hdoc, d, hd, rfl, node, hnode, hnamed, hkind, hselect⟩, rfl⟩
      obtain ⟨hrdoc, hrid, -⟩ := ScanRequest.admit?_same hselect
      obtain ⟨context, hcontext, hid, hrelates⟩ :=
        (Selector.exists_select?_ofContext_iff hstore hinput hd hnode hback remember).mp
          ⟨ref, hselect⟩
      have hkey : ref.key = (d.doc.id, node.id) := by
        rw [NodeRef.key, hrdoc, hrid]
        rfl
      rw [hkey]
      exact ⟨_, ⟨rfl, hdoc, hnamed⟩, d, hd, rfl, ⟨node, hnode, rfl, hkind⟩, context, hcontext,
        hid, Relation.admits_of_looksBack hback _ _, hrelates⟩
    · rintro ⟨_, ⟨rfl, hdoc, hnamed⟩, d, hd, hid, ⟨node, hnode, hnid, hkind⟩, context, hcontext,
        hcid, -, hrelates⟩
      obtain rfl : key = (d.doc.id, node.id) := Prod.ext hid.symm hnid.symm
      obtain ⟨ref, hselect⟩ :=
        (Selector.exists_select?_ofContext_iff hstore hinput hd hnode hback remember).mpr
          ⟨context, hcontext, hcid, hrelates⟩
      obtain ⟨hrdoc, hrid, -⟩ := Selector.select?_same hselect
      refine ⟨ref, ⟨d.doc.id, hdoc, d, hd, rfl, node, hnode, hnamed, hkind, hselect⟩, ?_⟩
      rw [NodeRef.key, hrdoc, hrid]
      rfl

/-- A context node reaches a stored node if it is one of its anchors. -/
theorem reaches_iff_exists_anchor (remember : Bool) {d : StoredDocument}
    (hd : d ∈ store.documents) {stored : StoredNode} (hnode : stored ∈ d.nodes) {anchor : NodeRef}
    (hanchor : anchor ∈ input.nodes) :
    store.Reaches relation kind [anchor] (d.doc.id, stored.id) ↔
      kind = stored.kind ∧
        ∃ found ∈ (Selector.ofContext relation input remember).anchors (d.ref stored),
          found.asContext = anchor.asContext := by
  simp only [Selector.mem_anchors_ofContext_iff hstore hinput hd hnode hback]
  constructor
  · rintro ⟨e, he, heid, hholds, other, hother, hoid, -, hrelates⟩
    obtain rfl := List.mem_singleton.mp hother
    obtain rfl : e = d := hstore.eq_of_id he hd heid
    obtain ⟨found, hfound, hfdoc, hfid, -⟩ :=
      hinput.exists_same hinput.sort hstore (fun _ => mem_sort.symm) hanchor
    have hown : e.Holds ⟨stored.id, stored.kind⟩ := ⟨stored, hnode, rfl, rfl⟩
    have hkind : kind = stored.kind := hholds.kind_eq (hstore.identifies he) hown rfl
    refine ⟨hkind, found, ⟨⟨hfound, hfdoc ▸ hoid⟩, hfid ▸ hrelates⟩, ?_⟩
    rw [NodeRef.asContext, NodeRef.asContext, hfdoc, hfid]
  · rintro ⟨rfl, found, ⟨⟨-, hfid⟩, hrelates⟩, hsame⟩
    obtain ⟨hdoc, hid⟩ : found.doc.id = anchor.doc.id ∧ found.id = anchor.id :=
      ⟨congrArg ContextNode.document hsame, congrArg ContextNode.id hsame⟩
    exact ⟨d, hd, rfl, ⟨stored, hnode, rfl, rfl⟩, anchor, List.mem_singleton_self anchor,
      hdoc ▸ hfid, Relation.admits_of_looksBack hback _ _, hid ▸ hrelates⟩

/-- The anchors of a stored node are the context nodes that it is reached from. -/
theorem exists_anchor_iff (remember : Bool) {d : StoredDocument} (hd : d ∈ store.documents)
    {stored : StoredNode} (hnode : stored ∈ d.nodes) :
    (∃ anchor ∈ (Selector.ofContext relation input remember).anchors (d.ref stored),
        anchor.asContext = c) ↔
      ∃ anchor ∈ input.nodes,
        store.Reaches relation stored.kind [anchor] (d.doc.id, stored.id) ∧
          anchor.HandsOn true c := by
  constructor
  · rintro ⟨found, hfound, rfl⟩
    obtain ⟨⟨hmem, -⟩, -⟩ :=
      (Selector.mem_anchors_ofContext_iff hstore hinput hd hnode hback remember).mp hfound
    obtain ⟨anchor, hanchor, hadoc, haid, -⟩ :=
      hinput.sort.exists_same hinput hstore (fun _ => mem_sort) hmem
    have hsame : found.asContext = anchor.asContext := by
      rw [NodeRef.asContext, NodeRef.asContext, hadoc, haid]
    refine ⟨anchor, hanchor, ?_, hsame⟩
    exact (reaches_iff_exists_anchor hstore hinput hback remember hd hnode hanchor).mpr
      ⟨rfl, found, hfound, hsame⟩
  · rintro ⟨anchor, hanchor, hreaches, hc⟩
    obtain ⟨-, found, hfound, hsame⟩ :=
      (reaches_iff_exists_anchor hstore hinput hback remember hd hnode hanchor).mp hreaches
    exact ⟨found, hfound, hsame.trans hc.symm⟩

/-- A selector that remembers records every context node that a candidate is reached from. -/
theorem mem_context_select?_iff {d : StoredDocument} (hd : d ∈ store.documents)
    {stored : StoredNode} (hnode : stored ∈ d.nodes) {ref : NodeRef}
    (h : (Selector.ofContext relation input true).select? (d.ref stored) = some ref) :
    c ∈ ref.context ↔
      ∃ anchor ∈ input.nodes, store.Reaches relation ref.kind [anchor] ref.key ∧
        anchor.HandsOn true c := by
  obtain ⟨hdoc, hid, hkind⟩ := Selector.select?_same h
  have hkey : ref.key = (d.doc.id, stored.id) := by
    rw [NodeRef.key, hdoc, hid]
    rfl
  rw [hkey, hkind]
  refine Iff.trans ?_ (exists_anchor_iff hstore hinput hback true hd hnode)
  rw [Selector.select?] at h
  split at h
  · cases h
  · next first rest hsome =>
    have hremember : (Selector.ofContext relation input true).remember := rfl
    rw [if_pos hremember] at h
    rw [← Option.some_inj.mp h, NodeRef.mem_context_pushContexts, hsome, ← List.mem_map]
    exact or_iff_right List.not_mem_nil

theorem keepsOrigins_selected :
    (ofList (docs.ids.flatMap (store.hitsIn
      ⟨indexed, name, some (.ofContext relation input true)⟩))).KeepsOrigins store relation
        input.nodes (store.Lists indexed name docs) fun anchor _ c => anchor.HandsOn true c := by
  refine (gathers_selected hstore hinput hback).keepsOrigins hstore (fun ref href c => ?_)
    fun ref href => ?_
  · obtain ⟨doc, -, href⟩ := List.mem_flatMap.mp href
    obtain ⟨d, hfound, node, hnode, -, hselect⟩ := ScanRequest.exists_of_mem_hitsIn href
    exact mem_context_select?_iff hstore hinput hback
      (hstore.document?_eq_some_iff.mp hfound).1 hnode hselect
  · obtain ⟨doc, -, href⟩ := List.mem_flatMap.mp href
    exact ScanRequest.storedIn_of_mem_hitsIn hstore href

end

end

end NodeSet

end TreeAxes
