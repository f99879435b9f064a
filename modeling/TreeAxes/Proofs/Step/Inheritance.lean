import TreeAxes.Proofs.NodeSet.Anchors
import TreeAxes.Proofs.Step.Raw

/-!
# Inherited contexts

A step that does not remember lets the nodes it finds inherit the contexts of the context nodes
that they were reached from. A join inherits from all of them, once for each, and the copies are
merged; a selector inherits from the nearest of them alone. So nested context nodes with contexts
of their own tell the two apart.
-/

namespace TreeAxes

variable {store : Store} {relation : Relation} {c : ContextNode}

namespace Store

/-- Whether no context node that reaches a node is nearer to it than the given one. -/
def Nearest (store : Store) (relation : Relation) (contexts : List NodeRef)
    (key : DocumentId × Nat) (anchor : NodeRef) : Prop :=
  ∀ other ∈ contexts, ∀ kind, store.Reaches relation kind [other] key →
    ¬relation.Nearer other.id anchor.id

end Store

namespace NodeSet

variable {input : NodeSet} {indexed : IndexedKind} {name : QName} {docs : DocumentSet}
  {d : StoredDocument} {stored : StoredNode}

section

variable (hstore : store.Sound) (hinput : input.StoredIn store)

include hstore hinput

/-- Anchors are listed nearest first. -/
theorem pairwise_anchors (hd : d ∈ store.documents) (hnode : stored ∈ d.nodes)
    (relation : Relation) (remember : Bool) :
    ((Selector.ofContext relation input remember).anchors (d.ref stored)).Pairwise
      fun a b => relation.Nearer a.id b.id := by
  rw [Selector.anchors_ofContext]
  cases hpart : input.sort.part? (d.ref stored).doc.id with
  | none => exact .nil
  | some p =>
    have hready := hinput.sort.ready hstore input.sort_order (part?_eq_some_iff.mp hpart).1
    have hdoc : p.doc = d.doc := hinput.sort.part?_doc hstore hd hpart
    have huses : p.doc.numbering.Uses stored.id := by
      rw [hdoc]
      exact (hstore.identifies hd).uses stored hnode
    exact Selector.pairwise_anchorsIn hready huses relation

variable (hback : relation.looksBack)

include hback

/-- The first anchor is the nearest: it stands for the copies of one context node, and no other
one that reaches the candidate is nearer. -/
theorem nearest_iff_first (hd : d ∈ store.documents) (hnode : stored ∈ d.nodes)
    {remember : Bool} {first : NodeRef} {rest : List NodeRef}
    (hanchors : (Selector.ofContext relation input remember).anchors (d.ref stored) =
      first :: rest) {anchor : NodeRef} (hanchor : anchor ∈ input.nodes) :
    store.Reaches relation stored.kind [anchor] (d.doc.id, stored.id) ∧
        store.Nearest relation input.nodes (d.doc.id, stored.id) anchor ↔
      first.asContext = anchor.asContext := by
  have hreaches {other : NodeRef} (hother : other ∈ input.nodes) {kind : NodeKind} :=
    @reaches_iff_exists_anchor _ _ kind _ hstore hinput hback remember d hd stored hnode other
      hother
  have hordered := pairwise_anchors hstore hinput hd hnode relation remember
  rw [hanchors] at hordered
  simp only [hanchors] at hreaches
  obtain ⟨hfirst, -⟩ := List.pairwise_cons.mp hordered
  have hid {a b : NodeRef} (hsame : a.asContext = b.asContext) : a.id = b.id :=
    congrArg ContextNode.id hsame
  constructor
  · rintro ⟨hanchored, hnearest⟩
    obtain ⟨-, found, hfound, hsame⟩ := (hreaches hanchor).mp hanchored
    obtain rfl | hfound := List.mem_cons.mp hfound
    · exact hsame
    · -- the first anchor comes from the input, too, and would be nearer
      obtain ⟨other, hother, hreached, hown⟩ :=
        (exists_anchor_iff hstore hinput hback remember hd hnode).mp
          ⟨first, hanchors ▸ List.mem_cons_self, rfl⟩
      refine absurd ?_ (hnearest other hother _ hreached)
      rw [← hid hsame, ← hid (show first.asContext = other.asContext from hown)]
      exact hfirst found hfound
  · intro hsame
    refine ⟨(hreaches hanchor).mpr ⟨rfl, first, List.mem_cons_self, hsame⟩, ?_⟩
    intro other hother kind hreached hnearer
    obtain ⟨-, found, hfound, hown⟩ := (hreaches hother).mp hreached
    rw [← hid hown, ← hid hsame] at hnearer
    obtain rfl | hfound := List.mem_cons.mp hfound
    · exact hnearer.ne rfl
    · exact hnearer.asymm (hfirst found hfound)

/-- A selector that does not remember lets a candidate inherit what the nearest context node
remembers. -/
theorem mem_context_inherited_iff (hd : d ∈ store.documents) (hnode : stored ∈ d.nodes)
    {ref : NodeRef}
    (h : (Selector.ofContext relation input false).select? (d.ref stored) = some ref) :
    c ∈ ref.context ↔
      ∃ anchor ∈ input.nodes, store.Reaches relation ref.kind [anchor] ref.key ∧
        store.Nearest relation input.nodes ref.key anchor ∧ c ∈ anchor.context := by
  obtain ⟨hdoc, hid, hkind⟩ := Selector.select?_same h
  have hkey : ref.key = (d.doc.id, stored.id) := by
    rw [NodeRef.key, hdoc, hid]
    rfl
  have hownkind : ref.kind = stored.kind := hkind
  rw [hkey, hownkind]
  rw [Selector.select?] at h
  split at h
  · cases h
  · next first rest hanchors =>
    have hforget : ¬(Selector.ofContext relation input false).remember := Bool.false_ne_true
    rw [if_neg hforget] at h
    have hcontext : ref.context = first.context := by
      rw [← Option.some_inj.mp h]
      rfl
    obtain ⟨⟨hmem, -⟩, -⟩ :=
      (Selector.mem_anchors_ofContext_iff hstore hinput hd hnode hback false).mp
        (hanchors ▸ List.mem_cons_self : first ∈ _)
    rw [hcontext, mem_context_sort_iff hmem]
    refine exists_congr fun anchor => and_congr_right fun hanchor => ?_
    rw [← and_assoc, nearest_iff_first hstore hinput hback hd hnode hanchors hanchor]
    refine and_congr_left fun _ => ?_
    rw [NodeRef.key, NodeRef.key, NodeRef.asContext, NodeRef.asContext, ContextNode.mk.injEq,
      Prod.mk.injEq]
    exact and_congr eq_comm eq_comm

/-- Of a scan with a selector that does not remember, each node inherits from the nearest context
node. -/
theorem keepsOrigins_inherited :
    (ofList (docs.ids.flatMap (store.hitsIn
      ⟨indexed, name, some (.ofContext relation input false)⟩))).KeepsOrigins store relation
        input.nodes (store.Lists indexed name docs) fun anchor key c =>
          store.Nearest relation input.nodes key anchor ∧ c ∈ anchor.context := by
  refine (gathers_selected hstore hinput hback).keepsOrigins hstore (fun ref href c => ?_)
    fun ref href => ?_
  · obtain ⟨doc, -, href⟩ := List.mem_flatMap.mp href
    obtain ⟨d, hfound, node, hnode, -, hselect⟩ := ScanRequest.exists_of_mem_hitsIn href
    exact mem_context_inherited_iff hstore hinput hback
      (hstore.document?_eq_some_iff.mp hfound).1 hnode hselect
  · obtain ⟨doc, -, href⟩ := List.mem_flatMap.mp href
    exact ScanRequest.storedIn_of_mem_hitsIn hstore href

end

end NodeSet

namespace Plan

variable {plan : Plan} {input : InputSet} {name : QName}

section

variable (hname : plan.test.name = some name) (hrelation : plan.axis.relation? = some relation)
  (hforgets : plan.remembers = false) (hstore : store.Sound)
  (hinput : input.nodes.StoredIn store)

include hname hrelation hforgets hstore hinput

/-- Found by a scan with a selector, nodes inherit from the nearest context node. -/
theorem keepsOrigins_of_pushdown (hstrategy : plan.strategy = .pushdown) (source : NodeSource) :
    ((plan.found input.nodes fun _ => store).toNodeSet source).KeepsOrigins store relation
      input.nodes.nodes (plan.Asks store input.nodes) fun anchor key c =>
        store.Nearest relation input.nodes.nodes key anchor ∧ c ∈ anchor.context := by
  by_cases hmay : plan.axis.elementsOnly → plan.test.mayMatchElement
  · have hscans : plan.ScansFor name := ⟨hname, hmay⟩
    rw [hscans.found_eq hrelation, if_pos hstrategy, hforgets]
    refine (NodeSet.keepsOrigins_inherited hstore hinput
      (looksBack_of_pushdown hrelation hstrategy)).congr (fun key kind _ => ?_) fun _ _ _ => .rfl
    exact (asks_scanned_iff hscans).symm
  · rw [found_excluded hmay]
    exact keepsOrigins_empty hmay

/-- Found by a join, nodes inherit from all context nodes that they were reached from. -/
theorem keepsOrigins_of_join (hstrategy : plan.strategy ≠ .pushdown) (source : NodeSource) :
    ((plan.found input.nodes fun _ => store).toNodeSet source).KeepsOrigins store relation
      input.nodes.nodes (plan.Asks store input.nodes) fun anchor _ c => c ∈ anchor.context := by
  by_cases hmay : plan.axis.elementsOnly → plan.test.mayMatchElement
  · have hscans : plan.ScansFor name := ⟨hname, hmay⟩
    rw [hscans.found_eq hrelation, if_neg hstrategy, hforgets]
    refine (NodeSet.keepsOrigins_joined hstore hinput).congr (fun key kind _ => ?_)
      fun _ _ _ => .rfl
    exact (asks_scanned_iff hscans).symm
  · rw [found_excluded hmay]
    exact keepsOrigins_empty hmay

end

/-- A selector and a join find the same nodes. By the selector, a node inherits the contexts of the
nearest context node that it was reached from; by the join, those of all of them. If a scan is to
fail, both steps say so. -/
theorem inherits_by_strategy (hquiet : plan.index = .quiet) (hname : plan.test.name = some name)
    (hselector : plan.axis.hasSelector) (hrelation : plan.axis.relation? = some relation)
    (hforgets : plan.remembers = false) (hstore : store.Sound)
    (hinput : input.nodes.StoredIn store) :
    let pushed : Plan := { plan with preload := false }
    let joined : Plan := { plan with preload := true, inUpdate := false }
    if store.failNext && plan.scans then
      (pushed.fresh.eval input store).outcome = .error (.index .injected) ∧
        (joined.fresh.eval input store).outcome = .error (.index .injected)
    else
      ∃ raw raw', (pushed.fresh.eval input store).step.cached = some raw ∧
        (joined.fresh.eval input store).step.cached = some raw' ∧
        (∀ key, key ∈ raw.result.keys store ↔ key ∈ raw'.result.keys store) ∧
        (∀ node ∈ (raw.result.toNodeSet store.source).nodes, ∀ c, c ∈ node.context ↔
          ∃ anchor ∈ input.nodes.nodes, store.Reaches relation node.kind [anchor] node.key ∧
            store.Nearest relation input.nodes.nodes node.key anchor ∧ c ∈ anchor.context) ∧
        ∀ node ∈ (raw'.result.toNodeSet store.source).nodes, ∀ c, c ∈ node.context ↔
          ∃ anchor ∈ input.nodes.nodes, store.Reaches relation node.kind [anchor] node.key ∧
            c ∈ anchor.context := by
  intro pushed joined
  have haxis := Axis.exists_relation_iff.mp ⟨relation, hrelation⟩
  have hwildcard : ¬plan.test.isWildcard := by
    rw [NodeTest.isWildcard, hname]
    exact Bool.false_ne_true
  have hpushdown : pushed.strategy = .pushdown := by
    rw [strategy, if_neg hwildcard, hselector]
    rfl
  have hpreload : joined.strategy ≠ .pushdown := by
    rw [strategy, if_neg hwildcard]
    exact Strategy.noConfusion
  by_cases hfail : store.failNext && plan.scans
  · rw [if_pos hfail]
    exact ⟨(if_pos hfail).mp (@exists_raw pushed hquiet haxis input store),
      (if_pos hfail).mp (@exists_raw joined hquiet haxis input store)⟩
  · rw [if_neg hfail]
    have hkeeps := @keepsOrigins_of_pushdown _ _ pushed _ _ hname hrelation hforgets hstore hinput
      hpushdown store.source
    have hkeeps' := @keepsOrigins_of_join _ _ joined _ _ hname hrelation hforgets hstore hinput
      hpreload store.source
    obtain ⟨raw, hcached, -, hkeys, hcontexts⟩ :=
      @raw_keepsOrigins pushed store hquiet haxis hfail hstore _ _ _ _ hkeeps
    obtain ⟨raw', hcached', -, hkeys', hcontexts'⟩ :=
      @raw_keepsOrigins joined store hquiet haxis hfail hstore _ _ _ _ hkeeps'
    exact ⟨raw, raw', hcached, hcached', fun key => (hkeys key).trans (hkeys' key).symm, hcontexts,
      hcontexts'⟩

/-- A root with a leaf and, beside it, a node with two leaves of the same name. -/
def nest : Store :=
  let leaf : Tree := .leaf (.element "x")
  .applyAll .empty [.add "one" (.node (.element "r") [] [leaf, .node (.element "a") [] [leaf, leaf]])]

/-- The nodes above the leaves, as a step that stays where it is finds them inside a predicate:
each remembers itself. -/
def stayed : InputSet :=
  ⟨⟨0⟩, .ofList ((nest.named ⟨1⟩ "r" ++ nest.named ⟨1⟩ "a").map fun node =>
    node.pushContext node.asContext)⟩

def leavesBelow : Plan := { axis := .descendant, test := .namedElement (.ofLocal "x") }

theorem sound_nest : nest.Sound := Store.sound_empty.applyAll _

theorem storedIn_stayed : stayed.nodes.StoredIn nest := by
  refine NodeSet.storedIn_ofList sound_nest fun ref href => ?_
  obtain ⟨node, hnode, rfl⟩ := List.mem_map.mp href
  obtain hnode | hnode := List.mem_append.mp hnode
  · exact .pushContext (Store.storedIn_named sound_nest hnode) _
  · exact .pushContext (Store.storedIn_named sound_nest hnode) _

theorem inherits_by_strategy_stayed :
    ∃ raw raw', (leavesBelow.fresh.eval stayed nest).step.cached = some raw ∧
      (({ leavesBelow with preload := true } : Plan).fresh.eval stayed nest).step.cached =
        some raw' ∧
      (∀ key, key ∈ raw.result.keys nest ↔ key ∈ raw'.result.keys nest) ∧
      (∀ node ∈ (raw.result.toNodeSet nest.source).nodes, ∀ c, c ∈ node.context ↔
        ∃ anchor ∈ stayed.nodes.nodes, nest.Reaches (.descendant false) node.kind [anchor] node.key ∧
          nest.Nearest (.descendant false) stayed.nodes.nodes node.key anchor ∧
            c ∈ anchor.context) ∧
      ∀ node ∈ (raw'.result.toNodeSet nest.source).nodes, ∀ c, c ∈ node.context ↔
        ∃ anchor ∈ stayed.nodes.nodes, nest.Reaches (.descendant false) node.kind [anchor] node.key ∧
          c ∈ anchor.context := by
  have hinherits := @inherits_by_strategy nest (.descendant false) leavesBelow stayed
    (.ofLocal "x") rfl rfl rfl rfl rfl sound_nest storedIn_stayed
  have hready : ¬(nest.failNext && leavesBelow.scans) := by decide
  exact (if_neg hready).mp hinherits

/-- A leaf on the lower level was reached from both nodes above it. By the selector it remembers
what the lower one remembers, by the join also what the root does. -/
theorem contexts_differ_stayed :
    nest.Sound ∧ stayed.nodes.StoredIn nest ∧ leavesBelow.axis.hasSelector ∧
      leavesBelow.remembers = false ∧
      ∃ raw raw', (leavesBelow.fresh.eval stayed nest).step.cached = some raw ∧
        (({ leavesBelow with preload := true } : Plan).fresh.eval stayed nest).step.cached =
          some raw' ∧
        ∃ node ∈ (raw.result.toNodeSet nest.source).nodes,
          ∃ other ∈ (raw'.result.toNodeSet nest.source).nodes, other.key = node.key ∧
            ∃ c ∈ other.context, c ∉ node.context := by
  refine ⟨sound_nest, storedIn_stayed, rfl, rfl, ?_⟩
  have hready : ¬(nest.failNext && leavesBelow.scans) := by decide
  have hkeeps := @keepsOrigins_of_pushdown _ _ leavesBelow _ _ rfl rfl rfl sound_nest
    storedIn_stayed rfl nest.source
  have hkeeps' := @keepsOrigins_of_join _ _ { leavesBelow with preload := true } _ _ rfl rfl rfl
    sound_nest storedIn_stayed nofun nest.source
  obtain ⟨raw, hcached, -, hkeys, hcontexts⟩ :=
    @raw_keepsOrigins leavesBelow nest rfl nofun hready sound_nest _ _ _ _ hkeeps
  obtain ⟨raw', hcached', hstored', hkeys', hcontexts'⟩ :=
    @raw_keepsOrigins { leavesBelow with preload := true } nest rfl nofun hready sound_nest _ _ _ _
      hkeeps'
  have hasks : leavesBelow.Asks nest stayed.nodes (⟨1⟩, 6) .element := by
    rw [@asks_scanned_iff leavesBelow nest (.ofLocal "x") ⟨rfl, nofun⟩]
    exact ⟨rfl, by decide +kernel, by decide +kernel⟩
  have hreaches : nest.Reaches (.descendant false) .element stayed.nodes.nodes (⟨1⟩, 6) := by
    decide +kernel
  obtain ⟨node, hnode, hkey⟩ := NodeSet.mem_iff_exists_node.mp
    (StepResult.mem_keys_iff.mp ((hkeys _).mpr ⟨_, hasks, hreaches⟩))
  obtain ⟨other, hother, hkey'⟩ := NodeSet.mem_iff_exists_node.mp
    (StepResult.mem_keys_iff.mp ((hkeys' _).mpr ⟨_, hasks, hreaches⟩))
  refine ⟨raw, raw', hcached, hcached', node, hnode, other, hother, hkey'.trans hkey.symm,
    ⟨⟨1⟩, 1⟩, ?_, ?_⟩
  · have hkind : NodeKind.element = other.kind :=
      Store.Reaches.kind_eq (hkey'.symm ▸ hreaches) sound_nest (hstored'.of_mem_nodes hother)
    rw [hcontexts' other hother, hkey', ← hkind]
    decide +kernel
  · rw [hcontexts node hnode, hkey]
    rintro ⟨anchor, hanchor, -, hnearest, hc⟩
    have hlower : ∀ anchor ∈ stayed.nodes.nodes, (⟨⟨1⟩, 1⟩ : ContextNode) ∈ anchor.context →
        ∃ other ∈ stayed.nodes.nodes,
          nest.Reaches (.descendant false) .element [other] (⟨1⟩, 6) ∧ anchor.id < other.id := by
      decide +kernel
    obtain ⟨other, hother, hreaches, hlt⟩ := hlower anchor hanchor hc
    exact hnearest other hother .element hreaches hlt

end Plan

end TreeAxes
