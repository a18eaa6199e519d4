import Mathlib.Data.List.Nodup
import ReactiveView.Proofs.Propagation

/-!
# The order of writes

What happens in a group while values are passed falls into rounds, one for each write.  In a round
the value is passed to the cells that live; then those of them that notify take turns, in the order
in which they were linked, and each calls the subscriptions that live when its turn begins, in the
order of registration.

The writes that were called are at every point those whose rounds have begun, followed by those that
wait.  For a group in the middle of a round the calls that are left complete the record (`Told`).
-/

namespace ReactiveView.Reactive

open List

/-! ## Records -/

namespace Event

/-- The value of a write to a group. -/
def write? (g : GroupId) : Event → Option Json
  | .issued h value => if h = g then some value else none
  | _ => none

/-- Whether something is announced in a group. -/
def isNotice (g : GroupId) : Event → Bool
  | .issued _ _ => false
  | .passed h _ _ | .begun h _ _ | .called h _ _ => h = g

end Event

/-- The writes to a group, in the order of the calls. -/
def writes (g : GroupId) (trace : List Event) : List Json := trace.filterMap (Event.write? g)

/-- What is announced in a group. -/
def notices (g : GroupId) (trace : List Event) : List Event := trace.filter (Event.isNotice g)

@[simp] theorem writes_append (g : GroupId) (trace events : List Event) :
    writes g (trace ++ events) = writes g trace ++ writes g events := filterMap_append

@[simp] theorem notices_append (g : GroupId) (trace events : List Event) :
    notices g (trace ++ events) = notices g trace ++ notices g events := filter_append ..

/-- One value that is passed in a group. -/
structure Round where
  value : Json
  cells : List CellId
  /-- The cells that notify, each with the subscriptions that it calls. -/
  turns : List (CellId × List SubscriptionId) := []

namespace Round

/-- All that is announced in a round. -/
def notices (g : GroupId) (r : Round) : List Event :=
  .passed g r.value r.cells ::
    r.turns.flatMap fun turn => .begun g turn.1 turn.2 :: turn.2.map (.called g · r.value)

/-- The round of a store up to the turns of some last cells. -/
structure Fits (s : Store) (rest : List CellId) (r : Round) : Prop where
  ascending : r.cells.Pairwise (· < ·)
  known : ∀ c ∈ r.cells, c < s.cells.length
  last : rest <:+ r.cells
  turned : r.turns.map (·.1) ++ rest.filter (fun c => (s.kind c).notifies) =
    r.cells.filter fun c => (s.kind c).notifies
  registered : ∀ turn ∈ r.turns,
    turn.2.Pairwise (· < ·) ∧ ∀ n ∈ turn.2, n ∈ s.registered turn.1

variable {s s' : Store} {r : Round} {rest : List CellId}

theorem Fits.mem_cells (fits : r.Fits s rest) {turn : CellId × List SubscriptionId}
    (member : turn ∈ r.turns) : turn.1 ∈ r.cells := by
  have turned : turn.1 ∈ r.cells.filter fun c => (s.kind c).notifies :=
    fits.turned ▸ mem_append_left _ (mem_map_of_mem member)
  exact (mem_filter.mp turned).1

theorem Fits.grows (fits : r.Fits s rest) (grows : s.Grows s') : r.Fits s' rest where
  ascending := fits.ascending
  known c member := Nat.lt_of_lt_of_le (fits.known c member) grows.size
  last := fits.last
  turned := by
    have same (cells : List CellId) (part : ∀ c ∈ cells, c ∈ r.cells) :
        (cells.filter fun c => (s'.kind c).notifies) =
          cells.filter fun c => (s.kind c).notifies :=
      filter_congr fun c member => by rw [grows.kind c (fits.known c (part c member))]
    rw [same r.cells fun _ => id, same rest fun _ member => fits.last.mem member, fits.turned]
  registered turn member := by
    obtain ⟨ascending, registered⟩ := fits.registered turn member
    have inside := fits.known _ (fits.mem_cells member)
    exact ⟨ascending, fun n called => (grows.registered _ inside).mem (registered n called)⟩

theorem Fits.begin (consistent : s.Consistent) (g : GroupId) (value : Json) :
    Fits s (s.liveMembers g) { value, cells := s.liveMembers g } where
  ascending := consistent.pairwise_liveMembers g
  known c member := Store.lt_length_of_isLive (Store.mem_liveMembers.mp member).2
  last := suffix_rfl
  turned := rfl
  registered turn member := by cases member

theorem Fits.turn {c : CellId} (fits : r.Fits s (c :: rest)) (enrolled : s.Enrolled)
    (notifies : (s.kind c).notifies = true) :
    Fits s rest { r with turns := r.turns ++ [(c, s.liveSubscriptions c)] } where
  ascending := fits.ascending
  known := fits.known
  last := (suffix_cons c rest).trans fits.last
  turned := by simpa [notifies] using fits.turned
  registered turn member := by
    rcases mem_append.mp member with before | now
    · exact fits.registered turn before
    · rw [mem_singleton.mp now]
      refine ⟨(enrolled.ascending c).filter _, fun n called => ?_⟩
      exact (Store.mem_liveSubscriptions.mp called).1

theorem Fits.skip {c : CellId} (fits : r.Fits s (c :: rest))
    (plain : (s.kind c).notifies = false) : r.Fits s rest where
  ascending := fits.ascending
  known := fits.known
  last := (suffix_cons c rest).trans fits.last
  turned := by simpa [plain] using fits.turned
  registered := fits.registered

/-- No subscription is called twice in a round. -/
theorem Fits.nodup (fits : r.Fits s []) (enrolled : s.Enrolled) :
    (r.turns.flatMap (·.2)).Nodup := by
  rw [nodup_flatMap]
  constructor
  · intro turn member
    exact (fits.registered turn member).1.imp Nat.ne_of_lt
  · have turned : (r.turns.map (·.1)).Pairwise (· < ·) := by
      have turned := fits.turned
      rw [filter_nil, append_nil] at turned
      rw [turned]
      exact fits.ascending.filter _
    refine (pairwise_map.mp turned).imp_of_mem ?_
    intro a b memberA memberB before n calledA calledB
    have same := enrolled.apart a.1 b.1 n ((fits.registered a memberA).2 n calledA)
      ((fits.registered b memberB).2 n calledB)
    exact Nat.ne_of_lt before same

end Round

/-! ## What one step keeps -/

namespace Store

variable {s s' : Store} {g : GroupId}

theorem Grows.pass (s : Store) (g : GroupId) (value : Json) : s.Grows (s.pass g value) :=
  (Grows.assign s value _).trans (.fades (Fades.pass s g value) (.foldl .retain _ _))

theorem SameRegistry.pass (s : Store) (g : GroupId) (value : Json) :
    s.SameRegistry (s.pass g value) :=
  (SameRegistry.assign s value _).trans (.foldl .retain _ _)

theorem SameRegistry.setPropagating (s : Store) (g : GroupId) (b : Bool) :
    s.SameRegistry (s.setPropagating g b) := .modifyGroup s g _

/-- All cells of a group have values that cells of the group had. -/
def Inherits (g : GroupId) (s s' : Store) : Prop :=
  ∀ c, s'.isLive c = true → s'.groupOf c = g →
    ∃ d, s.isLive d = true ∧ s.groupOf d = g ∧ s.value d = s'.value c

theorem Inherits.fades (fades : s.Fades s') (g : GroupId) : Inherits g s s' := fun c live group =>
  ⟨c, fades.live c live, fades.group c ▸ group, (fades.value c).symm⟩

theorem Inherits.trans {s'' : Store} (first : Inherits g s s') (second : Inherits g s' s'') :
    Inherits g s s'' := by
  intro c live group
  obtain ⟨d, liveD, groupD, sameD⟩ := second c live group
  obtain ⟨e, liveE, groupE, sameE⟩ := first d liveD groupD
  exact ⟨e, liveE, groupE, sameE.trans sameD⟩

theorem Inherits.pass (consistent : s.Consistent) {h : GroupId} (other : g ≠ h) (value : Json) :
    Inherits g s (s.pass h value) := by
  intro c live group
  have live := isLive_of_pass live
  rw [groupOf_pass] at group
  refine ⟨c, live, group, ?_⟩
  rw [consistent.value_pass live, if_neg (group.symm ▸ other)]

/-- A new cell that starts with the value of a cell of its group. -/
theorem Inherits.add {cell : Cell} (added : s'.cells = s.cells ++ [cell])
    (source : cell.group = g → ∃ d, s.isLive d = true ∧ s.groupOf d = g ∧ s.value d = cell.value) :
    Inherits g s s' := by
  intro c live group
  by_cases new : c = s.nextCell
  · subst new
    simp only [groupOf, value, getElem?_cells_new added, Option.map_some, Option.getD_some]
      at group ⊢
    exact source group
  · simp only [isLive, groupOf, value, getElem?_cells_old added new] at live group ⊢
    exact ⟨c, live, group, rfl⟩

end Store

namespace Advances

variable {s s' : Store} {rounds rounds' : List (GroupId × Phase)} {events : List Event}

theorem grows (advances : Advances s rounds events s' rounds') : s.Grows s' := by
  cases advances with
  | rest | call | called | skip => exact .refl s
  | operate op handle =>
    cases op with
    | create kind value => exact .create s kind value
    | link source kind => exact .link s source kind
    | retain c => exact .fades (.retain (handle c rfl)) (.retain s c)
    | release c => exact .fades (.release s c) (.release s c)
    | subscribe c => exact .subscribe s c
    | unsubscribe n => exact .fades (.unsubscribe s n) (.unsubscribe s n)
    | set c value => exact .refl s
  | wait => exact .fades (.enqueue s _ _) (.modifyGroup s _ _)
  | @write _ c value live _ =>
    have held := Store.Grows.fades (.retain live) (.retain s c)
    have marked := Store.Grows.fades (.setPropagating (s.retain c) (s.groupOf c) true)
      (.setPropagating _ _ _)
    exact (held.trans marked).trans (.pass _ _ value)
  | turn => exact .fades (.foldl Store.Fades.hold _ _) (.foldl .hold _ _)
  | finish => exact .fades (.foldl Store.Fades.release _ _) (.foldl .release _ _)
  | drained => exact .fades (.setPropagating s _ _) (.setPropagating s _ _)
  | @next _ g value values _ =>
    have fades : s.Fades (s.modifyGroup g fun group => { group with pending := values }) :=
      .modifyGroup fun _ => rfl
    exact (Store.Grows.fades fades (.modifyGroup s g _)).trans (.pass _ g value)

theorem enrolled (advances : Advances s rounds events s' rounds') (enrolled : s.Enrolled) :
    s'.Enrolled := by
  cases advances with
  | rest | call | called | skip => exact enrolled
  | operate op _ =>
    cases op with
    | create kind value => exact enrolled.sameRegistry (.create s kind value)
    | link source kind => exact enrolled.sameRegistry (.link s source kind)
    | retain c => exact enrolled.sameRegistry (.retain s c)
    | release c => exact enrolled.sameRegistry (.release s c)
    | subscribe c => exact enrolled.subscribe c
    | unsubscribe n => exact enrolled.sameRegistry (.unsubscribe s n)
    | set c value => exact enrolled
  | wait => exact enrolled.sameRegistry (.modifyGroup s _ _)
  | @write _ c value _ _ =>
    have held := enrolled.sameRegistry (.retain s c)
    exact (held.sameRegistry (.setPropagating _ (s.groupOf c) true)).sameRegistry (.pass _ _ value)
  | turn => exact enrolled.sameRegistry (.foldl .hold _ _)
  | finish => exact enrolled.sameRegistry (.foldl .release _ _)
  | drained => exact enrolled.sameRegistry (.setPropagating s _ _)
  | next => exact (enrolled.sameRegistry (.modifyGroup s _ _)).sameRegistry (.pass _ _ _)

end Advances

namespace Machine

variable {σ τ κ : Type} {m : Machine σ τ κ} {g : GroupId}

theorem events_passed {value : Json} {cells : List CellId}
    (passed : .passed g value cells ∈ m.events) : cells = m.store.liveMembers g := by
  unfold events at passed
  split at passed <;> grind

theorem events_begun {c : CellId} {subscriptions : List SubscriptionId}
    (begun : .begun g c subscriptions ∈ m.events) :
    subscriptions = m.store.liveSubscriptions c := by
  unfold events at begun
  split at begun <;> grind

end Machine

/-! ## The record of a group -/

/-- What was announced in a group and the values of its rounds, given what is left of the last. -/
inductive Told (s : Store) (g : GroupId) : Option Phase → List Event → List Json → Prop
  | ended {phase : Option Phase} {done : List Round} (atRest : phase.bind Phase.value? = none)
      (complete : ∀ r ∈ done, r.Fits s []) :
      Told s g phase (done.flatMap (·.notices g)) (done.map (·.value))
  | turning {done : List Round} {now : Round} {rest held : List CellId}
      (complete : ∀ r ∈ done, r.Fits s []) (fits : now.Fits s rest) :
      Told s g (some (.turning rest held now.value)) ((done ++ [now]).flatMap (·.notices g))
        ((done ++ [now]).map (·.value))
  | calling {done : List Round} {now : Round} {rest held : List CellId}
      {subscriptions : List SubscriptionId} {told : List Event}
      (complete : ∀ r ∈ done, r.Fits s []) (fits : now.Fits s rest)
      (left : told ++ subscriptions.map (.called g · now.value) =
        (done ++ [now]).flatMap (·.notices g)) :
      Told s g (some (.calling subscriptions rest held now.value)) told
        ((done ++ [now]).map (·.value))

namespace Told

variable {s s' : Store} {g : GroupId} {phase : Option Phase} {told : List Event}
  {values : List Json} {c : CellId} {rest held : List CellId} {value : Json}

theorem grows (record : Told s g phase told values) (grows : s.Grows s') :
    Told s' g phase told values := by
  cases record with
  | ended atRest complete => exact .ended atRest fun r member => (complete r member).grows grows
  | turning complete fits =>
    exact .turning (fun r member => (complete r member).grows grows) (fits.grows grows)
  | calling complete fits left =>
    exact .calling (fun r member => (complete r member).grows grows) (fits.grows grows) left

theorem rounds (record : Told s g phase told values) (atRest : phase.bind Phase.value? = none) :
    ∃ done : List Round, (∀ r ∈ done, r.Fits s []) ∧ told = done.flatMap (·.notices g) ∧
      values = done.map (·.value) := by
  cases record with
  | ended _ complete => exact ⟨_, complete, rfl, rfl⟩
  | turning | calling => cases atRest

theorem turn (record : Told s g (some (.turning (c :: rest) held value)) told values)
    (enrolled : s.Enrolled) (notifies : (s.kind c).notifies = true) :
    Told s g (some (.calling (s.liveSubscriptions c) rest held value))
      (told ++ [.begun g c (s.liveSubscriptions c)]) values := by
  cases record with
  | ended atRest => cases atRest
  | @turning done now _ _ complete fits =>
    have taken := fits.turn enrolled notifies
    have told : Told s g (some (.calling (s.liveSubscriptions c) rest held now.value))
        ((done ++ [now]).flatMap (·.notices g) ++ [.begun g c (s.liveSubscriptions c)])
        ((done ++ [{ now with turns := now.turns ++ [(c, s.liveSubscriptions c)] }]).map
          Round.value) := by
      refine .calling complete taken ?_
      simp [Round.notices]
    simpa using told

theorem skip (record : Told s g (some (.turning (c :: rest) held value)) told values)
    (plain : (s.kind c).notifies = false) :
    Told s g (some (.turning rest held value)) told values := by
  cases record with
  | ended atRest => cases atRest
  | turning complete fits => exact .turning complete (fits.skip plain)

theorem finish (record : Told s g (some (.turning [] held value)) told values) :
    Told s g (some .between) told values := by
  cases record with
  | ended atRest => cases atRest
  | turning complete fits =>
    refine .ended rfl fun r member => ?_
    rcases mem_append.mp member with before | now
    · exact complete r before
    · rwa [mem_singleton.mp now]

theorem call {n : SubscriptionId} {ns : List SubscriptionId}
    (record : Told s g (some (.calling (n :: ns) rest held value)) told values) :
    Told s g (some (.calling ns rest held value)) (told ++ [.called g n value]) values := by
  cases record with
  | ended atRest => cases atRest
  | calling complete fits left =>
    refine .calling complete fits ?_
    rwa [append_assoc]

theorem called (record : Told s g (some (.calling [] rest held value)) told values) :
    Told s g (some (.turning rest held value)) told values := by
  cases record with
  | ended atRest => cases atRest
  | calling complete fits left =>
    rw [map_nil, append_nil] at left
    exact left ▸ .turning complete fits

theorem drained (record : Told s g (some .between) told values) : Told s g none told values := by
  obtain ⟨done, complete, rfl, rfl⟩ := record.rounds rfl
  exact .ended rfl complete

end Told

/-- The record of a group: what was announced, the values of its rounds followed by those that wait,
    and the last value that was passed in the cells that live. -/
structure Kept (s : Store) (g : GroupId) (phase : Option Phase) (trace : List Event)
    (values : List Json) : Prop where
  told : Told s g phase (notices g trace) values
  ordered : writes g trace = values ++ s.pending g
  latest : ∀ value ∈ values.getLast?, ∀ c, s.isLive c = true → s.groupOf c = g → s.value c = value

namespace Kept

variable {s s' : Store} {g : GroupId} {phase : Option Phase} {trace : List Event}
  {values : List Json} {events : List Event}

/-- Nothing happens in the group. -/
theorem away (kept : Kept s g phase trace values) (grows : s.Grows s')
    (pending : s'.pending g = s.pending g) (inherits : values ≠ [] → s.Inherits g s')
    (unsaid : notices g events = []) (unwritten : writes g events = []) :
    Kept s' g phase (trace ++ events) values where
  told := by
    rw [notices_append, unsaid, append_nil]
    exact kept.told.grows grows
  ordered := by rw [writes_append, unwritten, append_nil, kept.ordered, pending]
  latest value last c live group := by
    have some : values ≠ [] := by
      rintro rfl
      cases last
    obtain ⟨d, liveD, groupD, same⟩ := inherits some c live group
    rw [← same]
    exact kept.latest value last d liveD groupD

/-- A value is passed in a group that is in no round. -/
theorem pass (consistent : s.Consistent) (told : Told s g phase (notices g trace) values)
    (atRest : phase.bind Phase.value? = none) {value : Json}
    (said : notices g events = [.passed g value (s.liveMembers g)])
    (ordered : writes g (trace ++ events) = values ++ value :: s.pending g) (held : List CellId) :
    Kept (s.pass g value) g (some (.turning (s.liveMembers g) held value)) (trace ++ events)
      (values ++ [value]) where
  told := by
    obtain ⟨done, complete, before, rfl⟩ := told.rounds atRest
    have started := @Told.turning s g done _ _ held complete (.begin consistent g value)
    rw [flatMap_append, ← before, map_append] at started
    rw [notices_append, said]
    exact started.grows (.pass s g value)
  ordered := by
    rw [(Store.SameFlags.pass s g value).pending, ordered, append_assoc, singleton_append]
  latest v last c live group := by
    rw [List.getLast?_concat, Option.mem_some_iff] at last
    have live := Store.isLive_of_pass live
    rw [Store.groupOf_pass] at group
    rw [consistent.value_pass live, if_pos group, last]

/-- The round of the group goes on. -/
theorem proceed (kept : Kept s g phase trace values) {after : Option Phase} (fades : s.Fades s')
    (pending : s'.pending g = s.pending g)
    (told : Told s' g after (notices g trace ++ notices g events) values)
    (unwritten : writes g events = []) : Kept s' g after (trace ++ events) values where
  told := by rwa [notices_append]
  ordered := by rw [writes_append, unwritten, append_nil, kept.ordered, pending]
  latest value last c live group := by
    rw [fades.value]
    exact kept.latest value last c (fades.live c live) (fades.group c ▸ group)

end Kept

/-! ## Runs -/

/-- The records of all groups. -/
structure Recorded (s : Store) (rounds : List (GroupId × Phase)) (trace : List Event) : Prop where
  coherent : Coherent s rounds
  enrolled : s.Enrolled
  kept : ∀ g, ∃ values, Kept s g (rounds.lookup g) trace values
  fresh : ∀ g, s.groups.length ≤ g → writes g trace = []

namespace Recorded

variable {s s' : Store} {rounds rounds' : List (GroupId × Phase)} {trace events : List Event}
  {h : GroupId}

theorem empty : Recorded {} [] [] where
  coherent := .empty
  enrolled := .empty
  kept g := by
    refine ⟨[], @Told.ended _ _ _ [] rfl nofun, rfl, ?_⟩
    intro value last
    cases last
  fresh g _ := rfl

theorem lookup_of_not_mem {g : GroupId} (outside : g ∉ rounds.map (·.1)) :
    rounds.lookup g = none := by
  rw [lookup_eq_none_iff]
  intro round member
  have other : g ≠ round.1 := fun same => outside (same ▸ mem_map_of_mem member)
  simp [other]

theorem lookup_cons (g h : GroupId) (phase : Phase) :
    ((h, phase) :: rounds).lookup g = if g = h then some phase else rounds.lookup g := by
  rw [List.lookup_cons]
  by_cases same : g = h
  · simp [same]
  · rw [beq_false_of_ne same, if_neg same]

/-- Only one group has anything new in its record. -/
theorem keep (recorded : Recorded s rounds trace)
    (apart : ∀ g, g ≠ h → rounds'.lookup g = rounds.lookup g) (grows : s.Grows s')
    (pending : ∀ g, g ≠ h → s'.pending g = s.pending g) (inherits : ∀ g, g ≠ h → s.Inherits g s')
    (silent : ∀ g, g ≠ h → notices g events = [] ∧ writes g events = []) (here : ∀ values, Kept s h
      (rounds.lookup h) trace values → ∃ values', Kept s' h (rounds'.lookup h) (trace ++ events)
      values') (g : GroupId) : ∃ values, Kept s' g (rounds'.lookup g) (trace ++ events) values := by
  obtain ⟨values, kept⟩ := recorded.kept g
  by_cases same : g = h
  · subst same
    exact here values kept
  · rw [apart g same]
    exact ⟨values, kept.away grows (pending g same) (fun _ => inherits g same)
      (silent g same).1 (silent g same).2⟩

/-- The innermost round goes on. -/
theorem proceed {before after : Phase} (recorded : Recorded s ((h, before) :: rounds) trace)
    (fades : s.Fades s') (same : s.SameFlags s') (registry : s.SameRegistry s')
    (silent : ∀ g, g ≠ h → notices g events = []) (unwritten : ∀ g, writes g events = []) (told : ∀
      values, Told s h (some before) (notices h trace) values → Told s h (some after) (notices h
      trace ++ notices h events) values) (g : GroupId) :
    ∃ values, Kept s' g (((h, after) :: rounds).lookup g) (trace ++ events) values := by
  have grows := Store.Grows.fades fades registry
  refine recorded.keep (h := h) ?_ grows (fun g _ => same.pending g) (fun g _ => .fades fades g)
    (fun g other => ⟨silent g other, unwritten g⟩) ?_ g
  · intro g other
    rw [lookup_cons, lookup_cons, if_neg other, if_neg other]
  · intro values kept
    rw [lookup_cons, if_pos rfl] at kept ⊢
    exact ⟨values, kept.proceed fades (same.pending h) ((told values kept.told).grows grows)
      (unwritten h)⟩

theorem operate (recorded : Recorded s rounds trace) {op : Operation}
    (handle : ∀ c ∈ op.cell?, s.isLive c = true) (g : GroupId) :
    ∃ values, Kept (Machine.operate s op) g (rounds.lookup g) (trace ++ []) values := by
  obtain ⟨values, kept⟩ := recorded.kept g
  refine ⟨values, kept.away (@Advances.operate s rounds op handle).grows
    ((Store.SameFlags.operate s op).pending g) (fun some => ?_) rfl rfl⟩
  cases op with
  | create kind value =>
    refine .add rfl fun new => absurd ?_ some
    -- nothing was ever passed in a group that is new
    have none := recorded.fresh g (Nat.le_of_eq new)
    rw [kept.ordered, append_eq_nil_iff] at none
    exact none.1
  | link source kind => exact .add rfl fun same => ⟨source, handle source rfl, same, rfl⟩
  | retain c => exact .fades (.retain (handle c rfl)) g
  | release c => exact .fades (.release s c) g
  | subscribe c => exact .fades (.subscribe s c) g
  | unsubscribe n => exact .fades (.unsubscribe s n) g
  | set c value => exact .fades (.refl s) g

theorem wait (recorded : Recorded s rounds trace) (busy : s.isPropagating h = true) (value : Json)
    (g : GroupId) :
    ∃ values, Kept (s.enqueue h value) g (rounds.lookup g) (trace ++ [.issued h value]) values := by
  have fades := Store.Fades.enqueue s h value
  have inside := Store.lt_length_of_isPropagating busy
  have grows := Store.Grows.fades fades (.modifyGroup s h _)
  refine recorded.keep (h := h) (fun _ _ => rfl) grows ?_ (fun g _ => .fades fades g) ?_ ?_ g
  · intro g other
    rw [Store.pending_enqueue inside, if_neg (Ne.symm other)]
  · intro g other
    simp [notices, writes, Event.isNotice, Event.write?, Ne.symm other]
  · intro values kept
    refine ⟨values, ?_, ?_, ?_⟩
    · rw [notices_append]
      simpa [notices, Event.isNotice] using kept.told.grows grows
    · rw [writes_append, kept.ordered, Store.pending_enqueue inside, if_pos rfl]
      simp [writes, Event.write?]
    · intro v last c live group
      rw [fades.value]
      exact kept.latest v last c (fades.live c live) (fades.group c ▸ group)

theorem write (recorded : Recorded s rounds trace) {c : CellId} (live : s.isLive c = true)
    (free : s.isPropagating (s.groupOf c) = false) (value : Json) (held : List CellId)
    (g : GroupId) :
    ∃ values, Kept (((s.retain c).setPropagating (s.groupOf c) true).pass (s.groupOf c) value) g
      (((s.groupOf c, .turning (s.liveMembers (s.groupOf c)) held value) :: rounds).lookup g)
      (trace ++ [.issued (s.groupOf c) value,
        .passed (s.groupOf c) value (s.liveMembers (s.groupOf c))]) values := by
  let marked := (s.retain c).setPropagating (s.groupOf c) true
  have fades : s.Fades marked := (Store.Fades.retain live).trans (.setPropagating _ _ true)
  have grows : s.Grows marked := .fades fades
    ((Store.SameRegistry.retain s c).trans (.setPropagating _ _ true))
  have waiting (g : GroupId) : marked.pending g = s.pending g := Store.pending_setPropagating _ _ _
  have members : marked.liveMembers (s.groupOf c) = s.liveMembers (s.groupOf c) :=
    Store.liveMembers_retain live _ _ true
  have consistent := recorded.coherent.consistent.fades fades
  have outside : s.groupOf c ∉ rounds.map (·.1) := by
    rw [← recorded.coherent.marked, free]
    exact Bool.false_ne_true
  -- nothing waits in a group without a round, so the value is the next one
  have none := recorded.coherent.waiting _ outside
  refine recorded.keep (h := s.groupOf c) ?_ (grows.trans (.pass marked _ value)) ?_ ?_ ?_ ?_ g
  · intro g other
    rw [lookup_cons, if_neg other]
  · intro g _
    exact ((Store.SameFlags.pass marked _ value).pending g).trans (waiting g)
  · intro g other
    exact (Store.Inherits.fades fades g).trans (.pass consistent other value)
  · intro g other
    simp [notices, writes, Event.isNotice, Event.write?, Ne.symm other]
  · intro values kept
    rw [lookup_of_not_mem outside] at kept
    rw [lookup_cons, if_pos rfl, ← members]
    refine ⟨values ++ [value], .pass consistent (kept.told.grows grows) rfl ?_ ?_ held⟩
    · simp [notices, Event.isNotice]
    · rw [writes_append, kept.ordered, waiting, none]
      simp [writes, Event.write?]

theorem next (recorded : Recorded s ((h, .between) :: rounds) trace) {value : Json}
    {values : List Json} (waits : s.pending h = value :: values) (held : List CellId)
    (g : GroupId) :
    ∃ values', Kept ((s.modifyGroup h fun group => { group with pending := values }).pass h value) g
      (((h, .turning (s.liveMembers h) held value) :: rounds).lookup g)
      (trace ++ [.passed h value (s.liveMembers h)]) values' := by
  -- the write was issued before, and is only now passed
  let taken := s.modifyGroup h fun group => { group with pending := values }
  have fades : s.Fades taken := .modifyGroup fun _ => rfl
  have grows : s.Grows taken := .fades fades (.modifyGroup s h _)
  have waiting := Store.pending_modifyGroup (Store.lt_length_of_pending waits) values
  have members : taken.liveMembers h = s.liveMembers h := Store.liveMembers_modifyGroup h h values
  have consistent := recorded.coherent.consistent.fades fades
  refine recorded.keep (h := h) ?_ (grows.trans (.pass taken h value)) ?_ ?_ ?_ ?_ g
  · intro g other
    rw [lookup_cons, lookup_cons, if_neg other, if_neg other]
  · intro g other
    rw [(Store.SameFlags.pass taken h value).pending, waiting, if_neg (Ne.symm other)]
  · intro g other
    exact (Store.Inherits.fades fades g).trans (.pass consistent other value)
  · intro g other
    simp [notices, writes, Event.isNotice, Event.write?, Ne.symm other]
  · intro passed kept
    rw [lookup_cons, if_pos rfl] at kept ⊢
    rw [← members]
    refine ⟨passed ++ [value], .pass consistent (kept.told.grows grows) rfl ?_ ?_ held⟩
    · simp [notices, Event.isNotice]
    · rw [writes_append, kept.ordered, waits, waiting, if_pos rfl]
      simp [writes, Event.write?]

theorem drained (recorded : Recorded s ((h, .between) :: rounds) trace) (g : GroupId) :
    ∃ values, Kept (s.setPropagating h false) g (rounds.lookup g) (trace ++ []) values := by
  have fades := Store.Fades.setPropagating s h false
  have grows := Store.Grows.fades fades (.setPropagating s h false)
  have outside := (nodup_cons.mp recorded.coherent.distinct).1
  refine recorded.keep (h := h) ?_ grows (fun g _ => Store.pending_setPropagating h false g)
    (fun g _ => .fades fades g) (fun _ _ => ⟨rfl, rfl⟩) ?_ g
  · intro g other
    rw [lookup_cons, if_neg other]
  · intro values kept
    rw [lookup_cons, if_pos rfl] at kept
    rw [lookup_of_not_mem outside]
    have told := kept.told.drained.grows grows
    refine ⟨values, kept.proceed fades (Store.pending_setPropagating h false h) ?_ rfl⟩
    rwa [show notices h [] = [] from rfl, append_nil]

theorem advances (recorded : Recorded s rounds trace)
    (advances : Advances s rounds events s' rounds') : Recorded s' rounds' (trace ++ events) where
  coherent := recorded.coherent.advances advances
  enrolled := advances.enrolled recorded.enrolled
  fresh g beyond := by
    have before : s.groups.length ≤ g := Nat.le_trans advances.grows.groups beyond
    -- a group that is still to come has no cell that could be written
    have known {c : CellId} (live : s.isLive c = true) : s.groupOf c ≠ g := Nat.ne_of_lt
      (Nat.lt_of_lt_of_le (recorded.coherent.consistent.group c (Store.lt_length_of_isLive live))
        before)
    rw [writes_append, recorded.fresh g before]
    cases advances with
    | wait live => simp [writes, Event.write?, known live]
    | write live => simp [writes, Event.write?, known live]
    | _ => rfl
  kept := by
    cases advances with
    | rest =>
      rw [append_nil]
      exact recorded.kept
    | operate op handle => exact recorded.operate handle
    | wait _ busy => exact recorded.wait busy _
    | write live free => exact recorded.write live free _ _
    | next waits => exact recorded.next waits _
    | drained => exact recorded.drained
    | call =>
      refine recorded.proceed (.refl s) (.refl s) (.refl s) ?_ (fun _ => rfl) ?_
      · intro g other
        simp [notices, Event.isNotice, Ne.symm other]
      · intro values told
        simpa [notices, Event.isNotice] using told.call
    | called =>
      refine recorded.proceed (.refl s) (.refl s) (.refl s) (fun _ _ => rfl) (fun _ => rfl) ?_
      intro values told
      simpa [notices] using told.called
    | skip plain =>
      refine recorded.proceed (.refl s) (.refl s) (.refl s) (fun _ _ => rfl) (fun _ => rfl) ?_
      intro values told
      simpa [notices] using told.skip plain
    | turn notifies =>
      refine recorded.proceed (.foldl Store.Fades.hold _ _) (.foldl .hold _ _) (.foldl .hold _ _)
        ?_ (fun _ => rfl) ?_
      · intro g other
        simp [notices, Event.isNotice, Ne.symm other]
      · intro values told
        simpa [notices, Event.isNotice] using told.turn recorded.enrolled notifies
    | finish =>
      refine recorded.proceed (.foldl Store.Fades.release _ _) (.foldl .release _ _)
        (.foldl .release _ _) (fun _ _ => rfl) (fun _ => rfl) ?_
      intro values told
      simpa [notices] using told.finish

end Recorded

namespace Machine

variable {σ τ κ : Type} {p : Program σ τ κ} {m : Machine σ τ κ}

/-- Writes take effect in the order of the calls, each once.  A value is passed to the cells of the
    group that live then, and the turn of a cell calls the subscriptions of the cell that live when
    it begins.  Whenever no write to a group is going on, all that was announced in it are full
    rounds, one for each write in the order of the calls, and the group holds the last value.  In a
    round the cells are in link order, exactly those that notify take turns, and subscriptions are
    called in the order of registration, none twice. -/
theorem Runs.writesInOrder {state : σ} {tasks : List τ} {trace : List Event}
    (run : Runs p (initial state tasks) trace m) (g : GroupId) :
    (∀ value cells, .passed g value cells ∈ m.events →
      ∀ c, c ∈ cells ↔ m.store.isLive c = true ∧ m.store.groupOf c = g) ∧
    (∀ c subscriptions, .begun g c subscriptions ∈ m.events →
      ∀ n, n ∈ subscriptions ↔ n ∈ m.store.registered c ∧ m.store.isOwned n = true) ∧
    (.drain g ∉ m.stack → ∃ rounds : List Round,
      rounds.map (·.value) = writes g trace ∧
      rounds.flatMap (·.notices g) = notices g trace ∧
      (∀ r ∈ rounds, r.cells.Pairwise (· < ·) ∧
        r.turns.map (·.1) = r.cells.filter (fun c => (m.store.kind c).notifies) ∧
        (∀ turn ∈ r.turns, turn.2.Pairwise (· < ·)) ∧ (r.turns.flatMap (·.2)).Nodup) ∧
      ∀ value ∈ (writes g trace).getLast?, ∀ c, m.store.isLive c = true →
        m.store.groupOf c = g → m.store.value c = value) := by
  obtain ⟨rounds, stacked, recorded⟩ := run.invariant Recorded .empty
    fun _ _ _ _ _ _ recorded advances => recorded.advances advances
  refine ⟨?_, ?_, fun returned => ?_⟩
  · intro value cells passed c
    rw [events_passed passed, recorded.coherent.consistent.mem_liveMembers]
  · intro c subscriptions begun n
    rw [events_begun begun, Store.mem_liveSubscriptions]
  · rw [stacked.drain_mem] at returned
    obtain ⟨values, kept⟩ := recorded.kept g
    rw [Recorded.lookup_of_not_mem returned] at kept
    obtain ⟨done, complete, told, rfl⟩ := kept.told.rounds rfl
    have ordered := kept.ordered
    rw [recorded.coherent.waiting g returned, append_nil] at ordered
    refine ⟨done, ordered.symm, told.symm, ?_, ordered ▸ kept.latest⟩
    intro r member
    have fits := complete r member
    refine ⟨fits.ascending, ?_, fun turn taken => (fits.registered turn taken).1,
      fits.nodup recorded.enrolled⟩
    simpa using fits.turned

/-- Both subscriptions answer the write, and their answers come after it. -/
theorem Runs.writesInOrder_linkedPair :
    ∃ trace m, Runs answering (initial () [linkedPair]) trace m ∧ m.stack = [] ∧
      writes 0 trace = [.bool false, .bool true, .bool true] ∧
      (∃ rounds : List Round, rounds.map (·.value) = [.bool false, .bool true, .bool true] ∧
        rounds.flatMap (·.notices 0) = notices 0 trace) ∧
      ∀ c, m.store.isLive c = true → m.store.groupOf c = 0 → m.store.value c = .bool true := by
  obtain ⟨trace, m, executed, finished, written⟩ :
      ∃ trace m, (initial () [linkedPair]).execute answering 61 = some (trace, m) ∧
        m.stack = [] ∧ writes 0 trace = [.bool false, .bool true, .bool true] :=
    ⟨_, _, rfl, rfl, rfl⟩
  have run := Runs.execute .refl executed
  obtain ⟨rounds, values, told, _, latest⟩ := (Runs.writesInOrder run 0).2.2 (by simp [finished])
  rw [nil_append, written] at values latest
  exact ⟨_, m, run, finished, written, ⟨rounds, values, told⟩, latest _ rfl⟩

end Machine

end ReactiveView.Reactive
