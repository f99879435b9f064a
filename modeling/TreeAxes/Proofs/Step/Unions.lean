import TreeAxes.Proofs.Step.Items

/-!
# Unions

What a step answers for a set is the union of what it answers for its nodes, unless positions
follow one another on nodes that several context nodes share. A position keeps a node if it stands
there for one of its context nodes, but counts it for all of them from then on; so the next one
counts other nodes than it would for one context node alone.
-/

namespace TreeAxes

namespace Groups

variable {whole whole' groups : Groups} {parts : List Groups} {axis : Axis} {store : Store}
  {named : Bool} {p : Predicate} {ps : List Predicate} {passes : NodeRef → Bool} {n : Nat}

/-- Each group for itself. -/
def singles (groups : Groups) : List Groups := groups.map ([·])

/-- The parts name what the whole names. -/
def Covers (whole : Groups) (parts : List Groups) : Prop :=
  ∀ key, whole.Names key ↔ ∃ part ∈ parts, part.Names key

/-- Predicates narrow the whole as they narrow its parts: they fail if they fail for some part, and
otherwise leave what they leave of the parts. -/
structure Sums (whole : Groups) (parts : List Groups) (axis : Axis) (store : Store)
    (ps : List Predicate) : Prop where
  none_iff : whole.narrowAll? axis store ps = none ↔
    ∃ part ∈ parts, part.narrowAll? axis store ps = none
  names_iff : ∀ left, whole.narrowAll? axis store ps = some left → ∀ key, left.Names key ↔
    ∃ part ∈ parts, ∃ rest, part.narrowAll? axis store ps = some rest ∧ rest.Names key

theorem narrowAll?_cons (h : groups.narrow? axis store p = some whole) :
    groups.narrowAll? axis store (p :: ps) = whole.narrowAll? axis store ps := by
  rw [narrowAll?, h]
  rfl

theorem narrowAll?_cons_none (h : groups.narrow? axis store p = none) :
    groups.narrowAll? axis store (p :: ps) = none := by
  rw [narrowAll?, h]
  rfl

namespace Sums

theorem nil (h : whole.Covers parts) : Sums whole parts axis store [] where
  none_iff := by
    refine iff_of_false nofun ?_
    rintro ⟨part, -, hnone⟩
    cases hnone
  names_iff left hleft key := by
    obtain rfl := Option.some_inj.mp hleft
    rw [h key]
    constructor
    · rintro ⟨part, hpart, hnames⟩
      exact ⟨part, hpart, part, rfl, hnames⟩
    · rintro ⟨part, hpart, rest, hrest, hnames⟩
      obtain rfl := Option.some_inj.mp hrest
      exact ⟨part, hpart, hnames⟩

/-- If a predicate fails for no part, it is enough to look at the rest. -/
theorem cons {f : Groups → Groups} (hwhole : whole.narrow? axis store p = some whole')
    (hparts : ∀ part ∈ parts, part.narrow? axis store p = some (f part))
    (h : Sums whole' (parts.map f) axis store ps) : Sums whole parts axis store (p :: ps) where
  none_iff := by
    rw [narrowAll?_cons hwhole, h.none_iff]
    simp only [List.mem_map, exists_exists_and_eq_and]
    exact exists_congr fun part => and_congr_right fun hpart => by
      rw [narrowAll?_cons (hparts part hpart)]
  names_iff left hleft key := by
    rw [narrowAll?_cons hwhole] at hleft
    rw [h.names_iff left hleft]
    simp only [List.mem_map, exists_exists_and_eq_and]
    exact exists_congr fun part => and_congr_right fun hpart => by
      rw [narrowAll?_cons (hparts part hpart)]

/-- If it fails for some part, and so for the whole, nothing is left of either. -/
theorem failed (hwhole : whole.narrow? axis store p = none)
    (hpart : ∃ part ∈ parts, part.narrow? axis store p = none) :
    Sums whole parts axis store (p :: ps) where
  none_iff := by
    refine iff_of_true (narrowAll?_cons_none hwhole) ?_
    obtain ⟨part, hpart, hnone⟩ := hpart
    exact ⟨part, hpart, narrowAll?_cons_none hnone⟩
  names_iff left hleft := by
    rw [narrowAll?_cons_none hwhole] at hleft
    cases hleft

end Sums

/-! ## Filters -/

theorem covers_singles (groups : Groups) : groups.Covers groups.singles := by
  intro key
  simp only [Names, singles, List.mem_map, exists_exists_and_eq_and, List.mem_singleton,
    exists_eq_left]

theorem singles_restrict (groups : Groups) (passes : NodeRef → Bool) :
    groups.singles.map (·.restrict passes) = (groups.restrict passes).singles := by
  rw [singles, singles, restrict, List.map_map, List.map_map]
  rfl

theorem Covers.restrict (h : whole.Covers parts)
    (hkey : ∀ a b : NodeRef, a.key = b.key → passes a = passes b) :
    (whole.restrict passes).Covers (parts.map (·.restrict passes)) := by
  have hpassing (groups : Groups) (key : DocumentId × Nat) :
      (groups.restrict passes).Names key ↔
        groups.Names key ∧ ∀ node : NodeRef, node.key = key → passes node := by
    rw [names_restrict]
    constructor
    · rintro ⟨group, hgroup, node, hnode, hpasses, rfl⟩
      exact ⟨⟨group, hgroup, node, hnode, rfl⟩, fun other hsame =>
        (hkey other node hsame).trans hpasses⟩
    · rintro ⟨⟨group, hgroup, node, hnode, rfl⟩, hpasses⟩
      exact ⟨group, hgroup, node, hnode, hpasses node rfl, rfl⟩
  intro key
  simp only [List.mem_map, exists_exists_and_eq_and, hpassing, h key]
  exact ⟨fun ⟨⟨part, hpart, hnames⟩, hpasses⟩ => ⟨part, hpart, hnames, hpasses⟩,
    fun ⟨part, hpart, hnames, hpasses⟩ => ⟨⟨part, hpart, hnames⟩, hpasses⟩⟩

/-- A filter fails for the whole if it fails for some part, and otherwise goes through all of them
in the same way. -/
theorem Covers.filter_cases (h : whole.Covers parts) {label : String}
    {test : Store → NodeRef → Except StepError Bool}
    (htest : ∀ a b : NodeRef, a.key = b.key → test store a = test store b) :
    (whole.narrow? axis store (.filter label test) = none ∧
        ∃ part ∈ parts, part.narrow? axis store (.filter label test) = none) ∨
      whole.narrow? axis store (.filter label test) =
          some (whole.restrict (Predicate.accepts (test store))) ∧
        ∀ part ∈ parts, part.narrow? axis store (.filter label test) =
          some (part.restrict (Predicate.accepts (test store))) := by
  have hfails {groups : Groups} : groups.any (·.2.any (Predicate.fails (test store))) ↔
      ∃ key, groups.Names key ∧ ∃ node : NodeRef, node.key = key ∧
        Predicate.fails (test store) node := by
    simp only [List.any_eq_true]
    constructor
    · rintro ⟨group, hgroup, node, hnode, hfailed⟩
      exact ⟨node.key, ⟨group, hgroup, node, hnode, rfl⟩, node, rfl, hfailed⟩
    · rintro ⟨key, ⟨group, hgroup, node, hnode, rfl⟩, other, hkey, hfailed⟩
      refine ⟨group, hgroup, node, hnode, ?_⟩
      rwa [Predicate.fails, htest node other hkey.symm, ← Predicate.fails]
  by_cases hwhole : whole.any (·.2.any (Predicate.fails (test store)))
  · refine .inl ⟨if_pos hwhole, ?_⟩
    obtain ⟨key, hnames, hfailed⟩ := hfails.mp hwhole
    obtain ⟨part, hpart, hnames⟩ := (h key).mp hnames
    exact ⟨part, hpart, if_pos (hfails.mpr ⟨key, hnames, hfailed⟩)⟩
  · refine .inr ⟨if_neg hwhole, fun part hpart => if_neg fun hsome => hwhole ?_⟩
    obtain ⟨key, hnames, hfailed⟩ := hfails.mp hsome
    exact hfails.mpr ⟨key, (h key).mpr ⟨part, hpart, hnames⟩, hfailed⟩

theorem accepts_congr {label : String} {test : Store → NodeRef → Except StepError Bool}
    (hp : (Predicate.filter label test).Regular named) (store : Store) {a b : NodeRef}
    (hkey : a.key = b.key) :
    Predicate.accepts (test store) a = Predicate.accepts (test store) b := by
  rw [Predicate.accepts, hp store store rfl a b hkey, Predicate.accepts]

/-- After a filter, it is enough to look at what it accepts. -/
theorem Covers.sums_filter (h : whole.Covers parts) {label : String}
    {test : Store → NodeRef → Except StepError Bool}
    (hp : (Predicate.filter label test).Regular named)
    (hrest : Sums (whole.restrict (Predicate.accepts (test store)))
      (parts.map (·.restrict (Predicate.accepts (test store)))) axis store ps) :
    Sums whole parts axis store (.filter label test :: ps) := by
  obtain ⟨hwhole, hpart⟩ | ⟨hwhole, hparts⟩ :=
    @filter_cases _ _ axis _ h label test (hp store store rfl)
  · exact .failed hwhole hpart
  · exact .cons hwhole hparts hrest

/-- Filters narrow a whole as they narrow parts that cover it. -/
theorem Covers.sums (h : whole.Covers parts) (hregular : ∀ p ∈ ps, p.Regular named)
    (hfilters : ∀ p ∈ ps, ¬p.needsContext) : Sums whole parts axis store ps := by
  induction ps generalizing whole parts with
  | nil => exact .nil h
  | cons p ps ih =>
    obtain ⟨hp, hps⟩ := List.forall_mem_cons.mp hregular
    obtain ⟨hfilter, hrest⟩ := List.forall_mem_cons.mp hfilters
    cases p with
    | position n => exact absurd rfl hfilter
    | filter label test =>
      exact h.sums_filter hp
        (ih (h.restrict fun _ _ hkey => accepts_congr hp store hkey) hps hrest)
    | inInput keepMembers => exact hp.elim

/-! ## Positions -/

/-- What stands at a position in all groups stands at it in some group for itself. -/
theorem covers_picked (groups : Groups) (axis : Axis) (n : Nat) :
    (groups.restrict (groups.picks axis n)).Covers
      (groups.singles.map fun part => part.restrict (part.picks axis n)) := by
  intro key
  simp only [singles, List.mem_map, exists_exists_and_eq_and, names_restrict_picks,
    List.mem_singleton, exists_eq_left]

/-- With one position at most, each group may be narrowed for itself. -/
theorem sums_singles_of_one (groups : Groups) (hregular : ∀ p ∈ ps, p.Regular named)
    (hone : ps.countP Predicate.needsContext ≤ 1) :
    Sums groups groups.singles axis store ps := by
  induction ps generalizing groups with
  | nil => exact .nil groups.covers_singles
  | cons p ps ih =>
    obtain ⟨hp, hps⟩ := List.forall_mem_cons.mp hregular
    cases p with
    | position n =>
      -- only filters follow
      have hzero : ps.countP Predicate.needsContext = 0 := by
        rw [List.countP_cons_of_pos rfl] at hone
        exact Nat.le_zero.mp (Nat.le_of_succ_le_succ hone)
      exact .cons rfl (fun _ _ => rfl)
        ((groups.covers_picked axis n).sums hps (List.countP_eq_zero.mp hzero))
    | filter label test =>
      rw [List.countP_cons_of_neg Bool.false_ne_true] at hone
      refine groups.covers_singles.sums_filter hp ?_
      rw [singles_restrict]
      exact ih _ hps hone
    | inInput keepMembers => exact hp.elim

/-- Any two groups have the same nodes, or none in common. -/
def Apart (groups : Groups) : Prop :=
  ∀ a ∈ groups, ∀ b ∈ groups, a.2.map (·.key) = b.2.map (·.key) ∨
    ∀ x ∈ a.2, ∀ y ∈ b.2, x.key ≠ y.key

theorem Apart.restrict (h : groups.Apart)
    (hkey : ∀ a b : NodeRef, a.key = b.key → passes a = passes b) :
    (groups.restrict passes).Apart := by
  intro a ha b hb
  obtain ⟨own, hown, rfl⟩ := List.mem_map.mp ha
  obtain ⟨other, hother, rfl⟩ := List.mem_map.mp hb
  obtain hsame | hapart := h own hown other hother
  · exact .inl (NodeRef.map_key_filter hsame hkey)
  · exact .inr fun x hx y hy =>
      hapart x (List.mem_filter.mp hx).1 y (List.mem_filter.mp hy).1

/-- In groups that are apart, a node is picked where it is picked for itself. -/
theorem Apart.restrict_picks (h : groups.Apart) (axis : Axis) (n : Nat) :
    groups.singles.map (fun part => part.restrict (part.picks axis n)) =
      (groups.restrict (groups.picks axis n)).singles := by
  rw [singles, singles, Groups.restrict, List.map_map, List.map_map]
  refine List.map_congr_left fun group hgroup => ?_
  have hfilter : group.2.filter (picks [group] axis n) = group.2.filter (groups.picks axis n) := by
    refine List.filter_congr fun node hnode => Bool.eq_iff_iff.mpr ?_
    rw [picks_iff, picks_iff]
    constructor
    · rintro ⟨own, hown, hpicked⟩
      obtain rfl := List.mem_singleton.mp hown
      exact ⟨own, hgroup, hpicked⟩
    · rintro ⟨other, hother, x, hx, hkey⟩
      obtain hsame | hapart := h other hother group hgroup
      · have hpick := congrArg (node.key ∈ ·) (@Position.map_key_pick? axis.isReverse n _ _ hsame)
        have hmem : node.key ∈ (Position.pick? axis.isReverse n other.2).map (·.key) :=
          Option.mem_map.mpr ⟨x, hx, hkey⟩
        obtain ⟨y, hy, hykey⟩ := Option.mem_map.mp (hpick.mp hmem)
        exact ⟨group, List.mem_singleton_self group, y, hy, hykey⟩
      · exact absurd hkey (hapart x (Position.mem_of_mem_pick? hx) node hnode)
  exact congrArg (fun nodes => [(group.1, nodes)]) hfilter

/-- Groups that are apart may be narrowed each for itself. -/
theorem Apart.sums_singles (h : groups.Apart) (hregular : ∀ p ∈ ps, p.Regular named) :
    Sums groups groups.singles axis store ps := by
  induction ps generalizing groups with
  | nil => exact .nil groups.covers_singles
  | cons p ps ih =>
    obtain ⟨hp, hps⟩ := List.forall_mem_cons.mp hregular
    cases p with
    | position n =>
      refine .cons rfl (fun _ _ => rfl) ?_
      rw [h.restrict_picks axis n]
      exact ih (h.restrict fun _ _ => picks_congr) hps
    | filter label test =>
      refine groups.covers_singles.sums_filter hp ?_
      rw [singles_restrict]
      exact ih (h.restrict fun _ _ hkey => accepts_congr hp store hkey) hps
    | inInput keepMembers => exact hp.elim

/-- Two groups share two nodes, which one of them counts second and third and the other first and
second. What is second in either counts for both then, so its first is not what the other one is
left with for itself. -/
theorem narrowAll?_shared {c c' : ContextNode} {x y z v w : NodeRef} (hforward : ¬axis.isReverse)
    (hy : v.key = y.key) (hz : w.key = z.key) (hnodup : [x.key, y.key, z.key].Nodup) :
    narrowAll? [(c, [x, y, z]), (c', [v, w])] axis store [.position 2, .position 1] =
        some [(c, [y]), (c', [v])] ∧
      narrowAll? [(c', [v, w])] axis store [.position 2, .position 1] = some [(c', [w])] := by
  simp only [List.nodup_cons, List.mem_cons, List.not_mem_nil, not_or, or_false] at hnodup
  obtain ⟨⟨hxy, hxz⟩, hyz, -⟩ := hnodup
  rw [Bool.not_eq_true] at hforward
  constructor
  · simp [narrowAll?, narrow?, restrict, picks, Position.pick?, hforward, hy, hz, Ne.symm hxy,
      Ne.symm hxz, hyz, Ne.symm hyz]
  · simp [narrowAll?, narrow?, restrict, picks, Position.pick?, hforward, hy, hz, Ne.symm hyz]

end Groups

/-! ## Context nodes that share nothing -/

namespace Store

variable {store : Store} {relation : Relation} {kind kind' kind'' : NodeKind} {a b : NodeRef}
  {key shared : DocumentId × Nat}

/-- From a node to its children, its parent or itself: if two nodes share what they reach, they
share all of it. -/
theorem Reaches.of_shared (hstore : store.Sound) (ha : a.StoredIn store) (hb : b.StoredIn store)
    (hnear : relation ∈ [.child, .parent, .self]) (h : store.Reaches relation kind [a] key)
    (hashared : store.Reaches relation kind' [a] shared)
    (hbshared : store.Reaches relation kind'' [b] shared) : store.Reaches relation kind [b] key := by
  obtain ⟨d, hd, hdoc, -⟩ := ha
  obtain ⟨e, he, hdoc', -⟩ := hb
  rw [reaches_singleton_iff hstore hd hdoc] at hashared h
  rw [reaches_singleton_iff hstore he hdoc'] at hbshared ⊢
  obtain ⟨hid, -, -, hrelates⟩ := hashared
  obtain ⟨hid', -, -, hrelates'⟩ := hbshared
  obtain rfl : d = e := hstore.eq_of_id hd he (hid.trans hid'.symm)
  obtain ⟨hown, hholds, -, hreached⟩ := h
  simp only [List.mem_cons, List.not_mem_nil, or_false] at hnear
  obtain rfl | rfl | rfl := hnear
  · have hsame : a.id = b.id := Eq.trans (Eq.symm hrelates) hrelates'
    exact ⟨hown, hholds, trivial, Eq.trans hreached hsame⟩
  · have hsame : d.doc.numbering.parentOf a.id = d.doc.numbering.parentOf b.id :=
      Eq.trans hrelates (Eq.symm hrelates')
    exact ⟨hown, hholds, trivial, Eq.trans (Eq.symm hsame) hreached⟩
  · have hsame : a.id = b.id := Eq.trans (Eq.symm hrelates) hrelates'
    exact ⟨hown, hholds, trivial, Eq.trans hreached hsame⟩

end Store

namespace Plan

variable {plan : Plan} {store : Store} {relation : Relation} {name : QName} {input : InputSet}

theorem apart_items (hname : plan.ScansFor name) (hrelation : plan.axis.relation? = some relation)
    (hnear : relation ∈ [.child, .parent, .self]) (hstore : store.Sound)
    (hinput : input.nodes.StoredIn store) : (plan.items store input.nodes).Apart := by
  intro first hfirst second hsecond
  obtain ⟨a, ha, rfl⟩ := List.mem_map.mp hfirst
  obtain ⟨b, hb, rfl⟩ := List.mem_map.mp hsecond
  have hmem {c : NodeRef} (hc : c ∈ input.nodes.nodes) {key : DocumentId × Nat} :
      key ∈ (plan.alone store c).map (·.key) ↔
        ∃ kind, plan.Asks store input.nodes key kind ∧ store.Reaches relation kind [c] key := by
    rw [mem_alone_iff hname hrelation hstore (hinput.of_mem_nodes hc)]
    exact exists_congr fun kind => and_congr_left fun hreaches => asks_single_iff hname hc hreaches
  by_cases hshared : ∃ x ∈ plan.alone store a, ∃ y ∈ plan.alone store b, x.key = y.key
  · obtain ⟨x, hx, y, hy, hkey⟩ := hshared
    obtain ⟨kind, -, hxreached⟩ := (hmem ha).mp (List.mem_map_of_mem hx)
    obtain ⟨kind', -, hyreached⟩ := (hmem hb).mp (List.mem_map_of_mem hy)
    rw [hkey] at hxreached
    have hastored := hinput.of_mem_nodes ha
    have hbstored := hinput.of_mem_nodes hb
    refine .inl (NodeSet.eq_of_mem_iff (fun _ _ _ hab => hab.asymm)
      (List.pairwise_map.mpr (pairwise_alone hname.1 store a))
      (List.pairwise_map.mpr (pairwise_alone hname.1 store b)) fun key => ?_)
    rw [hmem ha, hmem hb]
    constructor
    · rintro ⟨kind, hasks, hreaches⟩
      exact ⟨kind, hasks, hreaches.of_shared hstore hastored hbstored hnear hxreached hyreached⟩
    · rintro ⟨kind, hasks, hreaches⟩
      exact ⟨kind, hasks, hreaches.of_shared hstore hbstored hastored hnear hyreached hxreached⟩
  · exact .inr fun x hx y hy hkey => hshared ⟨x, hx, y, hy, hkey⟩

/-! ## What a step answers for a set and for its nodes -/

/-- What the step answers for a set is the union of what it answers for the nodes of the set; it
fails if it fails for one of them. -/
def IsUnion (plan : Plan) (input : InputSet) (store : Store) : Prop :=
  match (plan.fresh.eval input store).outcome with
  | .error _ => ∃ c ∈ input.nodes.nodes, ∃ fault, (plan.fresh.evalItem c store).1 = .error fault
  | .ok result =>
    (∀ c ∈ input.nodes.nodes, ∃ own, (plan.fresh.evalItem c store).1 = .ok own) ∧
      ∀ key, key ∈ result.keys store ↔ ∃ c ∈ input.nodes.nodes, ∃ own,
        (plan.fresh.evalItem c store).1 = .ok own ∧ key ∈ own.keys store

/-- The step answers with the union if its predicates narrow all groups as they narrow each of
them. -/
theorem isUnion_of_sums
    (heval : Concur (StepResult.Merges store) (plan.fresh.eval input store).outcome
      ((plan.items store input.nodes).narrowAll? plan.axis store plan.predicates))
    (hitems : ∀ c ∈ input.nodes.nodes,
      Concur (StepResult.Merges store) (plan.fresh.evalItem c store).1
        (Groups.narrowAll? [(c.asContext, plan.alone store c)] plan.axis store plan.predicates))
    (hsums : (plan.items store input.nodes).Sums (plan.items store input.nodes).singles plan.axis
      store plan.predicates) : plan.IsUnion input store := by
  have hnone := hsums.none_iff
  have hnames := hsums.names_iff
  simp only [Groups.singles, items, List.mem_map, exists_exists_and_eq_and] at heval hnone hnames
  rw [IsUnion]
  generalize (plan.fresh.eval input store).outcome = outcome at heval ⊢
  generalize Groups.narrowAll? _ _ _ _ = left at heval hnone hnames
  cases heval with
  | error fault =>
    obtain ⟨c, hc, hleft⟩ := hnone.mp rfl
    have hitem := hitems c hc
    rw [hleft] at hitem
    exact ⟨c, hc, hitem.exists_error⟩
  | ok hmerges =>
    have hitem {c : NodeRef} (hc : c ∈ input.nodes.nodes) :
        ∃ own rest, (plan.fresh.evalItem c store).1 = .ok own ∧
          Groups.narrowAll? [(c.asContext, plan.alone store c)] plan.axis store plan.predicates =
            some rest ∧ own.Merges store rest := by
      refine (hitems c hc).exists_ok fun hleft => ?_
      cases hnone.mpr ⟨c, hc, hleft⟩
    constructor
    · intro c hc
      obtain ⟨own, -, hown, -⟩ := hitem hc
      exact ⟨own, hown⟩
    · intro key
      rw [hmerges.mem_iff key, hnames _ rfl key]
      refine exists_congr fun c => and_congr_right fun hc => ?_
      obtain ⟨own, rest, hown, hrest, hmerged⟩ := hitem hc
      rw [hown, hrest]
      constructor
      · rintro ⟨_, ⟨⟩, hnamed⟩
        exact ⟨own, rfl, (hmerged.mem_iff key).mpr hnamed⟩
      · rintro ⟨_, ⟨⟩, hmem⟩
        exact ⟨rest, rfl, (hmerged.mem_iff key).mp hmem⟩

/-- A step without predicates, or with predicates that ask only what a node names and where it
stands, narrows what it finds for the nodes of its input, each counted for all context nodes that
find it. Alone, each context node counts for itself. The step answers with the union of what it
answers for each context node if no position follows another, or if its axis leads to children, to
the parent or to the node itself. If a scan is to fail, the step says so. -/
theorem eval_union (hpredicates : ∀ p ∈ plan.predicates, p.Regular true)
    (hquiet : plan.index = .quiet) (haxis : plan.axis ≠ .namespaceAxis)
    (hname : plan.LooksFor name) (hstore : store.Sound) (hinput : input.nodes.StoredIn store) :
    if store.failNext then
      (plan.fresh.eval input store).outcome = .error (.index .injected) ∧
        ∀ c ∈ input.nodes.nodes, (plan.fresh.evalItem c store).1 = .error (.index .injected)
    else
      ∃ alone : NodeRef → List NodeRef,
        (∀ c ∈ input.nodes.nodes, plan.ListsAlone store c (alone c)) ∧
        Concur (StepResult.Merges store) (plan.fresh.eval input store).outcome
          (Groups.narrowAll? (input.nodes.nodes.map fun c => (c.asContext, alone c)) plan.axis store
            plan.predicates) ∧
        (∀ c ∈ input.nodes.nodes, Concur (StepResult.Merges store)
          (plan.fresh.evalItem c store).1
          (Groups.narrowAll? [(c.asContext, alone c)] plan.axis store plan.predicates)) ∧
        (plan.predicates.countP Predicate.needsContext ≤ 1 ∨
            plan.axis ∈ [.child, .attribute, .parent, .self] →
          plan.IsUnion input store) := by
  split
  · next hfail =>
    exact ⟨eval_failing hquiet haxis hname.scansFor hfail input,
      fun c _ => evalItem_failing hquiet haxis hname.scansFor hfail c⟩
  · next hready =>
    obtain ⟨relation, hrelation⟩ := Axis.exists_relation_iff.mpr haxis
    have hregular : plan.Regular := by
      intro p hp
      rw [hname.scansFor.1]
      exact hpredicates p hp
    have heval := eval_merges hquiet haxis hname.scansFor hready hstore hregular hinput
    have hitems := fun c (hc : c ∈ input.nodes.nodes) =>
      evalItem_merges hquiet haxis hname.scansFor hready hstore hregular (hinput.of_mem_nodes hc)
    refine ⟨plan.alone store, fun c _ => listsAlone_alone hquiet haxis hname.scansFor hready c,
      heval, hitems, ?_⟩
    rintro (hone | hnear)
    · exact isUnion_of_sums heval hitems (Groups.sums_singles_of_one _ hpredicates hone)
    · have hnear : relation ∈ [.child, .parent, .self] := by
        simp only [List.mem_cons, List.not_mem_nil, or_false] at hnear
        obtain haxis | haxis | haxis | haxis := hnear
        all_goals
          rw [haxis] at hrelation
          rw [← Option.some_inj.mp hrelation]
          decide
      exact isUnion_of_sums heval hitems
        ((apart_items hname.scansFor hrelation hnear hstore hinput).sums_singles hpredicates)

/-- The nodes above the leaves. -/
def above : InputSet := ⟨⟨0⟩, .ofList (nest.named ⟨1⟩ "r" ++ nest.named ⟨1⟩ "a")⟩

theorem storedIn_above : above.nodes.StoredIn nest := by
  refine NodeSet.storedIn_ofList sound_nest fun ref href => ?_
  obtain href | href := List.mem_append.mp href
  · exact Store.storedIn_named sound_nest href
  · exact Store.storedIn_named sound_nest href

theorem eval_union_above : secondLeafBelow.IsUnion above nest := by
  have hunion := @eval_union secondLeafBelow nest (.ofLocal "x") above
    (List.forall_mem_singleton.mpr rfl) rfl nofun rfl sound_nest storedIn_above
  have hready : ¬nest.failNext := by decide
  obtain ⟨-, -, -, -, hisUnion⟩ := (if_neg hready).mp hunion
  exact hisUnion (.inl (Nat.le_refl 1))

/-- The first of the second leaves below each node. -/
def leafBelowTwice : Plan := { leavesBelow with predicates := [.position 2, .position 1] }

/-- Below a node, the leaves come in the order of their identifiers. -/
theorem map_key_alone_above {c : NodeRef} (hc : c ∈ above.nodes.nodes) :
    (leafBelowTwice.alone nest c).map (·.key) =
      [((⟨1⟩ : DocumentId), 2), (⟨1⟩, 6), (⟨1⟩, 7)].filter (c.id < ·.2) := by
  have hname : leafBelowTwice.ScansFor (.ofLocal "x") := ⟨rfl, nofun⟩
  refine NodeSet.eq_of_mem_iff (fun _ _ _ hab => hab.asymm)
    (List.pairwise_map.mpr (pairwise_alone rfl nest c)) (.filter _ (by decide +kernel))
    fun key => ?_
  rw [mem_alone_iff hname rfl sound_nest (storedIn_above.of_mem_nodes hc)]
  constructor
  · rintro ⟨kind, hasks, hreaches⟩
    obtain ⟨rfl, -, hnamed⟩ := (asks_scanned_iff hname).mp hasks
    have hheld : key ∈ nest.documents.flatMap fun d => d.nodes.map fun node =>
        (d.doc.id, node.id) := by
      obtain ⟨d, hd, hid, ⟨node, hnode, hnid, -⟩, -⟩ := hreaches
      exact List.mem_flatMap.mpr ⟨d, hd, List.mem_map.mpr ⟨node, hnode, Prod.ext hid hnid⟩⟩
    have hleaves : ∀ c ∈ above.nodes.nodes,
        ∀ key ∈ nest.documents.flatMap fun d => d.nodes.map fun node => (d.doc.id, node.id),
          nest.IsNamed (.ofLocal "x") key → nest.Reaches (.descendant false) .element [c] key →
            key ∈ [((⟨1⟩ : DocumentId), 2), (⟨1⟩, 6), (⟨1⟩, 7)].filter (c.id < ·.2) := by
      decide +kernel
    exact hleaves c hc key hheld hnamed hreaches
  · intro hmem
    have hleaves : ∀ c ∈ above.nodes.nodes,
        ∀ key ∈ [((⟨1⟩ : DocumentId), 2), (⟨1⟩, 6), (⟨1⟩, 7)].filter (c.id < ·.2),
          nest.IsNamed (.ofLocal "x") key ∧
            nest.Reaches (.descendant false) .element [c] key := by
      decide +kernel
    obtain ⟨hnamed, hreaches⟩ := hleaves c hc key hmem
    refine ⟨.element, (asks_scanned_iff hname).mpr ⟨rfl, ?_, hnamed⟩, hreaches⟩
    exact @Store.Reaches.mem_documents nest _ _ (.ofList [c]) key hreaches

theorem nodes_above : ∃ root lower, above.nodes.nodes = [root, lower] ∧ root.id = 1 ∧
    lower.id = 3 := by
  have hkeys : above.nodes.nodes.map (·.id) = [1, 3] := by decide +kernel
  obtain ⟨root, rest, hnodes, hroot, hrest⟩ := List.map_eq_cons_iff.mp hkeys
  obtain ⟨lower, rfl, hlower⟩ := List.map_eq_singleton_iff.mp hrest
  exact ⟨root, lower, hnodes, hroot, hlower⟩

/-- Below the root the second leaf is the first one below the other node, so it is counted there
as well. The second leaf below that one is answered for it alone, but not for both nodes. -/
theorem not_isUnion_above :
    nest.Sound ∧ above.nodes.StoredIn nest ∧ leafBelowTwice.LooksFor (.ofLocal "x") ∧
      (∀ p ∈ leafBelowTwice.predicates, p.Regular true) ∧ ¬leafBelowTwice.IsUnion above nest := by
  have hregular : ∀ p ∈ leafBelowTwice.predicates, p.Regular true :=
    List.forall_mem_cons.mpr ⟨rfl, List.forall_mem_singleton.mpr rfl⟩
  refine ⟨sound_nest, storedIn_above, rfl, hregular, ?_⟩
  have hname : leafBelowTwice.ScansFor (.ofLocal "x") := ⟨rfl, nofun⟩
  have haxis : leafBelowTwice.axis ≠ .namespaceAxis := nofun
  have hready : ¬nest.failNext := by decide
  obtain ⟨root, lower, hnodes, hroot, hlower⟩ := nodes_above
  have hlowerMem : lower ∈ above.nodes.nodes := hnodes ▸ List.mem_cons_of_mem _ List.mem_cons_self
  -- the groups, by their keys
  have hall : (leafBelowTwice.alone nest root).map (·.key) =
      [((⟨1⟩ : DocumentId), 2), (⟨1⟩, 6), (⟨1⟩, 7)] := by
    rw [map_key_alone_above (hnodes ▸ List.mem_cons_self), hroot]
    rfl
  have hbelow : (leafBelowTwice.alone nest lower).map (·.key) =
      [((⟨1⟩ : DocumentId), 6), (⟨1⟩, 7)] := by
    rw [map_key_alone_above hlowerMem, hlower]
    rfl
  obtain ⟨x, xs, hall, hx, hxs⟩ := List.map_eq_cons_iff.mp hall
  obtain ⟨y, ys, rfl, hy, hys⟩ := List.map_eq_cons_iff.mp hxs
  obtain ⟨z, rfl, hz⟩ := List.map_eq_singleton_iff.mp hys
  obtain ⟨v, vs, hbelow, hv, hvs⟩ := List.map_eq_cons_iff.mp hbelow
  obtain ⟨w, rfl, hw⟩ := List.map_eq_singleton_iff.mp hvs
  obtain ⟨hboth, hown⟩ := @Groups.narrowAll?_shared .descendant nest root.asContext lower.asContext
    x y z v w nofun (hv.trans hy.symm) (hw.trans hz.symm) (by rw [hx, hy, hz]; decide)
  -- what the evaluations make of them
  have heval := eval_merges rfl haxis hname hready sound_nest hregular storedIn_above
  rw [items, hnodes, List.map_cons, List.map_singleton, hall, hbelow] at heval
  obtain ⟨result, left, houtcome, hleft, hmerges⟩ :=
    heval.exists_ok (hboth.trans_ne (Option.some_ne_none _))
  have hitem := evalItem_merges rfl haxis hname hready sound_nest hregular
    (storedIn_above.of_mem_nodes hlowerMem)
  rw [hbelow] at hitem
  obtain ⟨own, rest, hanswer, hrest, hmerged⟩ :=
    hitem.exists_ok (hown.trans_ne (Option.some_ne_none _))
  obtain rfl := Option.some_inj.mp (hleft.symm.trans hboth)
  obtain rfl := Option.some_inj.mp (hrest.symm.trans hown)
  rw [IsUnion, houtcome]
  rintro ⟨-, hunion⟩
  have hsecond : w.key ∈ own.keys nest :=
    (hmerged.mem_iff w.key).mpr ⟨_, List.mem_singleton_self _, w, List.mem_singleton_self w, rfl⟩
  have hmissing := (hunion w.key).mpr ⟨lower, hlowerMem, own, hanswer, hsecond⟩
  rw [hmerges.mem_iff, hw] at hmissing
  simp [Groups.Names, hy, hv] at hmissing

end Plan

end TreeAxes
