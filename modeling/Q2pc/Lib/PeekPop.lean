import Q2pc.Lib.Machine

-- A queue that is read by looking at its first element and then taking it off. Its
-- elements come from a source that is asked for more while nothing is on show, and an
-- element stays at one place for as long as it is on show.
variable {α β : Type*}

structure PeekPop (α β : Type*) where
  waiting : List α
  -- where the first element is on show
  place : Option β
  deriving DecidableEq

-- What a look at the queue shows. `silent` is a success that shows nothing.
inductive PeekResult (α β : Type*)
  | shown (a : α) (b : β)
  | silent
  | nothing
  deriving DecidableEq

-- `asked` says whether the source was asked, `arrived` is what came from it.
inductive PeekPopEvent (α β : Type*)
  | peek (asked : Bool) (arrived : List α) (r : PeekResult α β)
  | arrive (asked : Bool) (arrived : List α)
  -- with the element that is given up
  | pop (dropped : Option α)
  deriving DecidableEq

namespace PeekPop

variable {q q' : PeekPop α β} {es : List (PeekPopEvent α β)}

def init : PeekPop α β := ⟨[], none⟩

def arrive (q : PeekPop α β) (asked : Bool) (arrived : List α) : Option (PeekPop α β) :=
  if asked then
    if q.place.isSome then none else some { q with waiting := q.waiting ++ arrived }
  else if arrived = [] then some q
  else none

private theorem arrive_eq {asked : Bool} {arrived : List α} (h : q.arrive asked arrived = some q') :
    q'.waiting = q.waiting ++ arrived := by
  unfold arrive at h
  split_ifs at h with hasked hplace harrived
  · obtain rfl := Option.some.inj h
    rfl
  · obtain rfl := Option.some.inj h
    rw [harrived, List.append_nil]

variable [DecidableEq α] [DecidableEq β]

def look (q : PeekPop α β) (r : PeekResult α β) : Option (PeekPop α β) :=
  match q.waiting, r with
  | [], .nothing => some q
  | a :: _, .shown a' b =>
      if a' = a ∧ (q.place = none ∨ q.place = some b) then some { q with place := some b }
      else none
  | _, _ => none

theorem look_shown {a : α} {b : β} {rest : List α} (hwaiting : q.waiting = a :: rest)
    (hplace : q.place = none ∨ q.place = some b) :
    q.look (.shown a b) = some { q with place := some b } := by
  simp only [look, hwaiting]
  exact if_pos ⟨trivial, hplace⟩

def step (q : PeekPop α β) : PeekPopEvent α β → Option (PeekPop α β)
  | .peek asked arrived r => (q.arrive asked arrived).bind (·.look r)
  | .arrive asked arrived => q.arrive asked arrived
  | .pop dropped =>
      match q.place, q.waiting with
      | some _, a :: rest =>
          if dropped = some a then some ⟨rest, none⟩ else none
      | _, _ => if dropped = none then some q else none

def machine : Machine (PeekPop α β) (PeekPopEvent α β) where
  init := init
  step := step

-- A queue accepts a record of what was seen of it.
def Accepts (es : List (PeekPopEvent α β)) : Prop := ∃ q, machine.Run Machine.always es q

def arrivals : PeekPopEvent α β → List α
  | .peek _ arrived _ => arrived
  | .arrive _ arrived => arrived
  | .pop _ => []

def drops : PeekPopEvent α β → List α
  | .peek _ _ _ | .arrive _ _ => []
  | .pop dropped => dropped.toList

private theorem look_eq {r : PeekResult α β} (h : q.look r = some q') :
    q'.waiting = q.waiting := by
  unfold look at h
  split at h
  · obtain rfl := Option.some.inj h
    rfl
  · simp only [Option.ite_none_right_eq_some, Option.some.injEq] at h
    obtain ⟨-, rfl⟩ := h
    rfl
  · simp at h

private theorem step_eq {e : PeekPopEvent α β} (h : q.step e = some q') :
    q.waiting ++ arrivals e = drops e ++ q'.waiting := by
  cases e with
  | peek asked arrived r =>
      obtain ⟨q₁, h₁, h₂⟩ := Option.bind_eq_some_iff.mp h
      rw [look_eq h₂, arrive_eq h₁, drops, List.nil_append, arrivals]
  | arrive asked arrived =>
      rw [arrive_eq h, drops, List.nil_append, arrivals]
  | pop dropped =>
      simp only [step] at h
      split at h <;> simp only [Option.ite_none_right_eq_some, Option.some.injEq] at h
      next a rest hplace hwaiting =>
        obtain ⟨rfl, rfl⟩ := h
        rw [hwaiting, arrivals, List.append_nil, drops, Option.toList_some, List.singleton_append]
      next =>
        obtain ⟨rfl, rfl⟩ := h
        rw [arrivals, List.append_nil, drops, Option.toList_none, List.nil_append]

-- Nothing is lost, duplicated or reordered: what was taken off, then what waits, is what
-- arrived.
theorem drops_append_waiting (h : machine.Run Machine.always es q) :
    es.flatMap drops ++ q.waiting = es.flatMap arrivals := by
  induction h with
  | nil => rfl
  | snoc _ _ hs ih =>
      rw [List.flatMap_append, List.flatMap_append, ← ih, List.flatMap_singleton,
        List.flatMap_singleton, List.append_assoc, List.append_assoc, step_eq hs]

end PeekPop
