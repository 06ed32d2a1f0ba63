import ModuleGraph.Promise.Settlement

/-! # Waiting for several promises

A joint wait fulfils its promise with an array of all values, in the order of the promises and not
of their settlements. The first rejection rejects it. -/

namespace ModuleGraph.Machine

variable {σ κ : Type} (track : Tracker σ)

/-- Attaches one reaction for each promise from `position` on. -/
def attachJoined (s : Machine σ κ) (j : JoinId) (position : Nat) : List PromiseId → Machine σ κ
  | [] => s
  | p :: rest => (s.attach track p ⟨.joined j position, none⟩).attachJoined j (position + 1) rest

/-- A promise for the values of all promises. -/
def all (s : Machine σ κ) (promises : List PromiseId) : PromiseId × Machine σ κ :=
  let (c, s) := s.newCapability
  if promises.isEmpty then
    let (o, s) := s.newObject (.ofList [])
    (c.promise, s.resolve track c (.object o))
  else
    let (j, s) := s.newJoin
      { remaining := promises.length
        values := List.replicate promises.length .undefined
        capability := c }
    (c.promise, s.attachJoined track j 0 promises)

def join (s : Machine σ κ) (j : JoinId) : Join := s.joins.getD j.index default

/-- Stores the value of one promise; the last one resolves the joint promise. -/
def joinFulfilled (s : Machine σ κ) (j : JoinId) (position : Nat) (value : Value) : Machine σ κ :=
  let old := s.join j
  let new := { old with remaining := old.remaining - 1, values := old.values.set position value }
  let s := { s with joins := s.joins.setIfInBounds j.index new }
  if new.remaining = 0 then
    let (o, s) := s.newObject (.ofList new.values)
    s.resolve track new.capability (.object o)
  else s

def joinRejected (s : Machine σ κ) (j : JoinId) (reason : Value) : Machine σ κ :=
  s.reject track (s.join j).capability reason

end ModuleGraph.Machine
