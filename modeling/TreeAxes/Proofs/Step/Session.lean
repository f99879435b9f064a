import Mathlib.Algebra.Group.Nat.Defs
import TreeAxes.Proofs.Step.Inputs
import TreeAxes.Proofs.Step.Validity

/-!
# Sessions

In a session a step is evaluated for sets that change, over a store that changes, also while the
step scans it. The step keeps a result and nodes scanned ahead; `Coherent` says what they have to
do with the sets and the store as they are now, and every action preserves it.
-/

namespace TreeAxes

/-- A set of a session, and how often it was changed. -/
structure Held where
  nodes : NodeSet
  mutations : Nat

/-- A store, a step that is evaluated over it and sets that it is evaluated for. The place of a
set is its identity. -/
structure Session where
  store : Store
  step : Step
  sets : List Held

namespace Session

inductive Action where
  | change (change : Store.Change)
  | failNextScan
  /-- Makes a set of its own, be it a copy of another one. -/
  | create (nodes : NodeSet)
  | operate (place : Nat) (operation : NodeSet.Operation)
  /-- Evaluates the step for a set; the index makes changes to the store around its scan. -/
  | eval (place : Nat) (index : Index)
  | evalItem (node : NodeRef) (index : Index)
  | hasCached
  | hasPreloaded
  | reset

/-- A session of a new step over an empty store. -/
def start (plan : Plan) : Session := ⟨.empty, plan.fresh, []⟩

/-- The evaluation of the step for a set. -/
def evaluate (s : Session) (place : Nat) (held : Held) (index : Index) : Evaluation :=
  (s.step.withIndex index).eval ⟨⟨place⟩, held.nodes⟩ s.store

/-- What the evaluation leaves. -/
def evaluated (s : Session) (place : Nat) (held : Held) (index : Index) : Session where
  store := (s.evaluate place held index).store
  step := (s.evaluate place held index).step
  sets := s.sets.modify place fun held =>
    ⟨(s.evaluate place held index).input.nodes, held.mutations⟩

def perform (s : Session) : Action → Session
  | .change change => { s with store := s.store.apply change }
  | .failNextScan => { s with store := s.store.failNextScan }
  | .create nodes => { s with sets := s.sets ++ [⟨nodes, 0⟩] }
  | .operate place operation =>
    { s with
      sets := s.sets.modify place fun held =>
        ⟨held.nodes.perform operation, held.mutations + held.nodes.mutations operation⟩ }
  | .eval place index =>
    match s.sets[place]? with
    | none => s
    | some held => s.evaluated place held index
  | .evalItem node index =>
    let (_, step, store) := (s.step.withIndex index).evalItem node s.store
    { s with step, store }
  | .hasCached =>
    let (_, step, store) := s.step.hasCached s.store
    { s with step, store }
  | .hasPreloaded =>
    let (_, step, store) := s.step.hasPreloaded s.store
    { s with step, store }
  | .reset => { s with step := s.step.reset }

/-- Operations are on sets in which the copies of a node agree. A revision of 32 bits counts the
changes of a set, so there must be fewer than that. -/
def Permits (s : Session) : Action → Prop
  | .operate place operation => ∀ held, s.sets[place]? = some held →
    held.nodes.Uniform ∧ held.mutations + held.nodes.mutations operation < 2 ^ 32
  | _ => True

/-- What a session comes to by permitted actions. -/
inductive Reachable (plan : Plan) : Session → Prop
  | start : Reachable plan (.start plan)
  | perform {s : Session} (h : Reachable plan s) (action : Action) (hpermits : s.Permits action) :
    Reachable plan (s.perform action)

end Session

/-! ## Sets over time -/

namespace Held

variable {before between after : Held} {R R' R'' : NodeSet → NodeSet → Prop}

/-- One version of a set comes from another by some changes. If there was none, the two are
related. -/
def Becomes (R : NodeSet → NodeSet → Prop) (before after : Held) : Prop :=
  ∃ more, after.mutations = before.mutations + more ∧
    after.nodes.revision = before.nodes.revision + UInt32.ofNat more ∧
      (more = 0 → R before.nodes after.nodes)

theorem becomes_of_rel (h : R before.nodes after.nodes)
    (hmutations : after.mutations = before.mutations)
    (hrevision : after.nodes.revision = before.nodes.revision) : before.Becomes R after :=
  ⟨0, hmutations, hrevision.trans (UInt32.add_zero _).symm, fun _ => h⟩

theorem becomes_perform (held : Held) {operation : NodeSet.Operation}
    (h : held.nodes.mutations operation = 0 → R held.nodes (held.nodes.perform operation)) :
    held.Becomes R
      ⟨held.nodes.perform operation, held.mutations + held.nodes.mutations operation⟩ :=
  ⟨held.nodes.mutations operation, rfl, held.nodes.perform_revision operation, h⟩

theorem Becomes.trans (h : before.Becomes R between) (h' : between.Becomes R' after)
    (hrel : R before.nodes between.nodes → R' between.nodes after.nodes →
      R'' before.nodes after.nodes) : before.Becomes R'' after := by
  obtain ⟨more, hmutations, hrevision, hsame⟩ := h
  obtain ⟨more', hmutations', hrevision', hsame'⟩ := h'
  refine ⟨more + more', by omega, ?_, fun hnone => ?_⟩
  · rw [hrevision', hrevision, UInt32.ofNat_add, UInt32.add_assoc]
  · exact hrel (hsame (by omega)) (hsame' (by omega))

/-- With fewer than 2 ^ 32 changes, the revision tells whether a set was changed. -/
theorem Becomes.rel (h : before.Becomes R after)
    (hbounded : after.mutations < before.mutations + 2 ^ 32)
    (hrevision : before.nodes.revision = after.nodes.revision) : R before.nodes after.nodes := by
  obtain ⟨more, hmutations, hlater, hsame⟩ := h
  refine hsame ?_
  rw [hlater, UInt32.left_eq_add] at hrevision
  have hzero : (UInt32.ofNat more).toNat = 0 := by
    rw [hrevision]
    rfl
  rw [UInt32.toNat_ofNat'] at hzero
  omega

end Held

namespace Plan

variable {plan : Plan} {before between after : Held}

/-- One version of a set comes from another. The step does not tell them apart if there was no
change. -/
def Follows (plan : Plan) (before after : Held) : Prop := before.Becomes plan.SameInput after

theorem Follows.trans (h : plan.Follows before between) (h' : plan.Follows between after) :
    plan.Follows before after := Held.Becomes.trans h h' .trans

/-- Without a change, an operation leaves what the step does not tell apart. -/
theorem Regular.follows_perform (hregular : plan.Regular) (held : Held)
    (huniform : held.nodes.Uniform) (operation : NodeSet.Operation) :
    plan.Follows held
      ⟨held.nodes.perform operation, held.mutations + held.nodes.mutations operation⟩ :=
  held.becomes_perform fun hnone =>
    hregular.sameInput_of_twin huniform (huniform.twin_perform hnone)

/-- An evaluation leaves its input as the step found it, or sorted, if that makes no difference. -/
theorem Regular.follows_left (hregular : plan.Regular) {held : Held} {left : NodeSet}
    (h : left = held.nodes ∨ left = held.nodes.sort ∧ plan.strategy = .pushdown) :
    plan.Follows held ⟨left, held.mutations⟩ := by
  obtain rfl | ⟨rfl, hstrategy⟩ := h
  · exact Held.becomes_of_rel (hregular.sameInput_refl _) rfl rfl
  · exact Held.becomes_of_rel (hregular.sameInput_sort hstrategy _) rfl held.nodes.sort_revision

end Plan

namespace Session

variable {plan : Plan} {s : Session} {entry : CacheEntry}

/-- Actions do not change what the step is asked to do. -/
theorem plan_perform {index : Index} (h : s.step.plan = plan.withIndex index) (action : Action) :
    ∃ index, (s.perform action).step.plan = plan.withIndex index := by
  have hindex (other : Index) : (s.step.withIndex other).plan = plan.withIndex other :=
    congrArg (·.withIndex other) h
  cases action with
  | change | failNextScan | create | operate | reset => exact ⟨index, h⟩
  | eval place other =>
    rw [perform]
    split
    · exact ⟨index, h⟩
    · exact ⟨other, (Step.eval_plan _ _ _).trans (hindex other)⟩
  | evalItem node other => exact ⟨other, (Step.takeIn_plan _ _).trans (hindex other)⟩
  | hasCached | hasPreloaded => exact ⟨index, (s.step.drain_plan s.store).trans h⟩

/-- A cached result was found for an earlier version of a set. -/
def Recorded (plan : Plan) (sets : List Held) (entry : CacheEntry) (base : NodeSet) : Prop :=
  ∃ (place : Nat) (first held : Held), entry.identity = ⟨place⟩ ∧ sets[place]? = some held ∧
    first.nodes = base ∧ base.revision = entry.revision ∧ plan.Follows first held

/-- What a step keeps is of the sets and the store as they are, unless events say otherwise. -/
structure Coherent (plan : Plan) (s : Session) : Prop where
  planned : ∃ index, s.step.plan = plan.withIndex index
  attends : s.step.Attends s.store
  bounded : ∀ (place : Nat) (held : Held), s.sets[place]? = some held → held.mutations < 2 ^ 32
  cached : ∀ entry ∈ s.step.cached, ∀ id ∈ s.step.listener, ∃ base,
    entry.Current plan base id s.store ∧ Recorded plan s.sets entry base

theorem Recorded.modify {sets : List Held} {base : NodeSet} (h : Recorded plan sets entry base)
    {place : Nat} {f : Held → Held}
    (hf : ∀ held, sets[place]? = some held → plan.Follows held (f held)) :
    Recorded plan (sets.modify place f) entry base := by
  obtain ⟨own, first, held, hidentity, hheld, hfirst, hrevision, hfollows⟩ := h
  refine ⟨own, first, if place = own then f held else held, hidentity, ?_, hfirst, hrevision, ?_⟩
  · rw [List.getElem?_modify, hheld]
    rfl
  · split
    · next heq => exact hfollows.trans (hf held (heq ▸ hheld))
    · exact hfollows

namespace Coherent

theorem start (plan : Plan) : Coherent plan (.start plan) where
  planned := ⟨plan.index, rfl⟩
  attends := ⟨fun _ => ⟨⟨rfl, rfl⟩, nofun⟩, nofun, nofun⟩
  bounded _ _ hheld := by cases hheld
  cached _ hentry := by cases hentry

/-- The store may change, as long as the step is told. -/
theorem moved (h : s.Coherent plan) {later : Store}
    (hnumbered : s.store.feed.Numbered → later.feed.Numbered)
    (hleads : ∀ id, s.store.feed.Serves id →
      later.feed.Serves id ∧ Store.Leads id s.store later) :
    Coherent plan { s with store := later } where
  planned := h.planned
  attends := h.attends.after hnumbered hleads
  bounded := h.bounded
  cached entry hentry id hid := by
    obtain ⟨base, hcurrent, hrecorded⟩ := h.cached entry hentry id hid
    exact ⟨base, hcurrent.leads (hleads id (h.attends.served id hid)).2, hrecorded⟩

/-- The step may forget what it keeps, and must do so for what is outdated. -/
theorem kept (h : s.Coherent plan) {step : Step} {later : Store}
    (hplanned : ∃ index, step.plan = s.step.plan.withIndex index) (hattends : step.Attends later)
    (hkept : ∀ id ∈ step.listener, ∀ entry ∈ step.cached, entry ∈ s.step.cached ∧
      s.step.listener = some id ∧ ∀ base, entry.Current s.step.plan base id s.store →
        entry.Current s.step.plan base id later) :
    Coherent plan { s with step, store := later } where
  planned := by
    obtain ⟨index, hindex⟩ := hplanned
    obtain ⟨own, hown⟩ := h.planned
    exact ⟨index, by rw [hindex, hown]; rfl⟩
  attends := hattends
  bounded := h.bounded
  cached entry hentry id hid := by
    obtain ⟨hentry, hlistener, hcurrent⟩ := hkept id hid entry hentry
    obtain ⟨base, hbase, hrecorded⟩ := h.cached entry hentry id hlistener
    obtain ⟨own, hown⟩ := h.planned
    rw [hown] at hcurrent
    exact ⟨base, hcurrent base hbase, hrecorded⟩

theorem operate (h : s.Coherent plan) (hregular : plan.Regular) {place : Nat}
    {operation : NodeSet.Operation} (hpermits : s.Permits (.operate place operation)) :
    Coherent plan (s.perform (.operate place operation)) where
  planned := h.planned
  attends := h.attends
  bounded own held hheld := by
    change (s.sets.modify place _)[own]? = some held at hheld
    rw [List.getElem?_modify] at hheld
    obtain ⟨before, hbefore, rfl⟩ := Option.map_eq_some_iff.mp hheld
    split
    · next heq => exact (hpermits before (heq ▸ hbefore)).2
    · exact h.bounded own before hbefore
  cached entry hentry id hid := by
    obtain ⟨base, hcurrent, hrecorded⟩ := h.cached entry hentry id hid
    refine ⟨base, hcurrent, hrecorded.modify fun held hheld => ?_⟩
    exact hregular.follows_perform held (hpermits held hheld).1 operation

theorem eval (h : s.Coherent plan) (hregular : plan.Regular) {place : Nat} {held : Held}
    (hheld : s.sets[place]? = some held) (index : Index) :
    Coherent plan (s.evaluated place held index) := by
  obtain ⟨own, hown⟩ := h.planned
  have hplanned : (s.step.withIndex index).plan = plan.withIndex index :=
    congrArg (·.withIndex index) hown
  have hplan := (Step.takeIn_plan _ s.store).trans hplanned
  obtain ⟨id, -, hkept, hleaves, -⟩ := (h.attends.withIndex index).eval ⟨⟨place⟩, held.nodes⟩
  have hleft := hleaves.left
  rw [hplan] at hleft
  have hfollows := hregular.follows_left hleft
  refine ⟨⟨index, hleaves.plan.trans hplan⟩, hleaves.attends, fun other later hlater => ?_,
    fun entry hentry other hother => ?_⟩
  · rw [evaluated, List.getElem?_modify] at hlater
    obtain ⟨before, hbefore, rfl⟩ := Option.map_eq_some_iff.mp hlater
    have hbounded := h.bounded other before hbefore
    split <;> exact hbounded
  · obtain rfl := Option.some_inj.mp (hleaves.listener.symm.trans hother)
    obtain hentry | ⟨hvalid, hcurrent⟩ := hleaves.cached entry hentry
    · obtain ⟨hentry, hlistener, hcurrent⟩ := hkept entry hentry
      obtain ⟨base, hbase, hrecorded⟩ := h.cached entry hentry id hlistener
      rw [hplanned] at hcurrent
      refine ⟨base, (hcurrent base hbase).leads hleaves.leads,
        hrecorded.modify fun held' hheld' => ?_⟩
      obtain rfl := Option.some_inj.mp (hheld.symm.trans hheld')
      exact hfollows
    · rw [hplan] at hcurrent
      obtain ⟨hidentity, hrevision⟩ := CacheEntry.isValid_iff.mp hvalid
      refine ⟨held.nodes, hcurrent, place, held, _, ?_, ?_, rfl, ?_, hfollows⟩
      · exact hidentity.trans hleaves.identity
      · rw [evaluated, List.getElem?_modify, hheld]
        exact congrArg some (if_pos rfl)
      · rw [hrevision]
        obtain hsame | ⟨hsorted, -⟩ := hleaves.left
        · rw [hsame]
        · rw [hsorted, NodeSet.sort_revision]

/-- Every permitted action keeps a session coherent. -/
theorem perform (h : s.Coherent plan) (hregular : plan.Regular) (action : Action)
    (hpermits : s.Permits action) : (s.perform action).Coherent plan := by
  cases action with
  | change change =>
    exact h.moved (fun hnumbered => Store.numbered_apply hnumbered change)
      fun id hserved => Store.leads_apply hserved change
  | failNextScan => exact h.moved id fun id hserved => ⟨hserved, .of_eq rfl rfl⟩
  | create nodes =>
    refine ⟨h.planned, h.attends, fun place held hheld => ?_, fun entry hentry id hid => ?_⟩
    · rw [Session.perform, List.getElem?_append] at hheld
      split at hheld
      · exact h.bounded place held hheld
      · rw [List.mem_singleton.mp (List.mem_of_getElem? hheld)]
        exact Nat.two_pow_pos 32
    · obtain ⟨base, hcurrent, place, first, held, hidentity, hheld, hrest⟩ :=
        h.cached entry hentry id hid
      refine ⟨base, hcurrent, place, first, held, hidentity, ?_, hrest⟩
      exact (List.getElem?_append_left (List.getElem?_eq_some_iff.mp hheld).1).trans hheld
  | operate place operation => exact h.operate hregular hpermits
  | eval place index =>
    rw [Session.perform]
    cases hheld : s.sets[place]? with
    | none => exact h
    | some held => exact h.eval hregular hheld index
  | evalItem node index =>
    obtain ⟨hplan, hattends, id, hid, hkept⟩ := (h.attends.withIndex index).evalItem node
    refine h.kept ⟨index, hplan⟩ hattends fun other hother => ?_
    obtain rfl := Option.some_inj.mp (hid.symm.trans hother)
    exact hkept
  | hasCached | hasPreloaded =>
    obtain ⟨hattends, hkept⟩ := h.attends.drained
    exact h.kept ⟨s.step.plan.index, s.step.drain_plan s.store⟩ hattends hkept
  | reset =>
    refine h.kept ⟨s.step.plan.index, rfl⟩ h.attends.reset fun id _ entry hentry => ?_
    cases hentry

end Coherent

/-- What a step keeps is accounted for, whatever happens in a session. -/
theorem Reachable.coherent (h : s.Reachable plan) (hregular : plan.Regular) : s.Coherent plan := by
  induction h with
  | start => exact .start plan
  | perform _ action hpermits ih => exact ih.perform hregular action hpermits

end Session

end TreeAxes
