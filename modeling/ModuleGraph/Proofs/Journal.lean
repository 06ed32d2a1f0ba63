import Mathlib.Logic.Relation
import ModuleGraph.Proofs.Fields

/-! # Journals

A host can keep a journal in its own state: which modules it gave for which requests, and when the
body of each module was started and how it ended. The journal has no influence on what the host
does. Properties of whole runs are read off it, together with the machine at the end of the run.

A request means a module as soon as the host has given that module for it. Resolution is stable in
a run if no request was ever given two modules. -/

namespace ModuleGraph

open Relation

variable {σ κ : Type}

/-- What a host notes. The body of a leaf is its evaluation. -/
inductive Entry where
  | resolved (referrer : ModuleId) (specifier : String) (target : ModuleId)
  | refused (referrer : ModuleId) (specifier : String) (thrown : Value)
  /-- A body starts; `before` shows the modules and promises at this moment. -/
  | started (module : ModuleId) (before : Machine Unit Unit)
  | ended (module : ModuleId)
  | threw (module : ModuleId) (thrown : Value)
  /-- A body waits for a promise; `next` is the error object that is made next. -/
  | waited (module : ModuleId) (next : ErrorId)

namespace Entry

def isAnswer : Entry → Bool
  | .resolved .. | .refused .. => true
  | .started .. | .ended _ | .threw .. | .waited .. => false

def isStart (m : ModuleId) : Entry → Bool
  | .started n _ => n == m
  | _ => false

end Entry

abbrev Journal := List Entry

namespace Journal

/-- No request was given two modules. -/
def Stable (j : Journal) : Prop :=
  ∀ m r n n', Entry.resolved m r n ∈ j → Entry.resolved m r n' ∈ j → n = n'

def starts (j : Journal) (m : ModuleId) : Nat := j.countP (Entry.isStart m)

def Answers (j : Journal) : Prop := ∀ e ∈ j, e.isAnswer

theorem Stable.of_prefix {j k : Journal} (h : Stable (j ++ k)) : j.Stable :=
  fun m r n n' hn hn' => h m r n n' (List.mem_append_left _ hn) (List.mem_append_left _ hn')

@[simp] theorem starts_append (j k : Journal) (m : ModuleId) :
    starts (j ++ k) m = starts j m + starts k m := List.countP_append

theorem Answers.starts_eq {j : Journal} (h : j.Answers) (m : ModuleId) : starts j m = 0 := by
  refine List.countP_eq_zero.2 fun e he => ?_
  have := h e he
  cases e <;> simp_all [Entry.isAnswer, Entry.isStart]

theorem Answers.append {j k : Journal} (h : j.Answers) (h' : k.Answers) : Answers (j ++ k) :=
  fun e he => (List.mem_append.1 he).elim (h e) (h' e)

theorem answers_nil : Answers [] := fun _ h => nomatch h

end Journal

/-- What a journal shows of a machine when a body starts. -/
def Machine.outline (s : Machine σ κ) : Machine Unit Unit :=
  { Machine.initial () with modules := s.modules, promises := s.promises }

def Machine.Requests (s : Machine σ κ) (j : Journal) (m n : ModuleId) : Prop :=
  ∃ r ∈ s.requested m, Entry.resolved m r n ∈ j

namespace Machine

variable {s : Machine σ κ} {j : Journal}

@[simp] theorem module_outline (m : ModuleId) : s.outline.module m = s.module m := rfl

@[simp] theorem promise_outline (p : PromiseId) : s.outline.promise p = s.promise p := rfl

@[simp] theorem cyclic?_outline (m : ModuleId) : s.outline.cyclic? m = s.cyclic? m := rfl

@[simp] theorem cyclic_outline (m : ModuleId) : s.outline.cyclic m = s.cyclic m := rfl

@[simp] theorem requested_outline (m : ModuleId) : s.outline.requested m = s.requested m := rfl

theorem Requests.mono {τ ι : Type} {s' : Machine τ ι} {j' : Journal} {m n : ModuleId}
    (h : s.Requests j m n) (hs : s'.requested m = s.requested m) (hj : ∀ e ∈ j, e ∈ j') :
    s'.Requests j' m n := by
  obtain ⟨r, hr, he⟩ := h
  exact ⟨r, hs ▸ hr, hj _ he⟩

end Machine

end ModuleGraph
