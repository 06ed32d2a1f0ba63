import ModuleGraph.Proofs.Evaluation.Awaiting
import ModuleGraph.Proofs.Evaluation.Opening

/-! # The search of an evaluation

The modules on the stack are being evaluated. Each request that was handled has led to an evaluated
leaf, to a module that is still open, or to a cycle that is complete or is waited for. A module
that was left has handled all of its requests, and it has run or has a turn. -/

namespace ModuleGraph.Graph

variable {g g' g'' : Graph} {m n x y d p q : ModuleId} {r : String}

/-- A module that had a turn when it was left is waited for by the module that it hangs on. -/
def Tied (g : Graph) (x y : ModuleId) : Prop :=
  (g.fields y).order ≠ .unset → x ∈ (g.fields y).parents

/-- An open module knows another open one that it requests, and was the one being visited when it
came to know it. -/
def Sees (g : Graph) (x n : ModuleId) : Prop :=
  g.lowOf x ≤ g.visitOf n ∧ ∀ a ∈ g.trail, g.visitOf x < g.visitOf a → g.visitOf n < g.visitOf a

def Handled (g : Graph) (x : ModuleId) (r : String) : Prop :=
  ∃ n, Entry.resolved x r n ∈ g.journal ∧ (g.leaf n ∨ (n ∈ g.stack ∧ g.Sees x n) ∨
    ∃ p, (g.fields n).root = some p ∧ (g.Complete p ∨ x ∈ (g.fields p).parents))

def Left (g : Graph) (x : ModuleId) : Prop :=
  ((g.fields x).order = .unset → g.starts x = 1 ∧ g.Ended x) ∧
    ∀ r ∈ (g.fields x).requested, g.Handled x r

structure Framed (g : Graph) (f : Frame) : Prop where
  requested : (g.fields f.module).requested = f.asked ++ f.todo
  handled : ∀ r ∈ f.asked, g.Handled f.module r
  fresh : f.fresh → (g.fields f.module).order = .unset ∧ g.starts f.module = 0

structure Alone (g : Graph) : Prop where
  ready : g.ready = []
  released : g.released = []
  debt : g.debt = []
  doom : g.doom = []

/-- An evaluation that visits the modules of the path. -/
structure Searching (g : Graph) : Prop extends Sound g where
  alone : g.Alone
  search : Search g.Requests g.Tied g.visitOf g.lowOf g.visits g.stack g.trail
  marked : ∀ x ∈ g.stack, (g.fields x).visit.isSome ∧ (g.fields x).ancestor.isSome
  frames : ∀ f ∈ g.path, g.Framed f
  left : ∀ x ∈ g.stack, x ∉ g.trail → g.Left x
  sees : ∀ d ∈ g.stack, ∀ x ∈ (g.fields d).parents, g.Sees x d

theorem Handled.mono (h : g.Handled x r) (hg : g.Grows g')
    (hs : ∀ n ∈ g.stack, g.Sees x n → n ∈ g'.stack ∧ g'.Sees x n) : g'.Handled x r := by
  obtain ⟨n, hn, hl | ⟨hst, hsee⟩ | ⟨p, hp, hc | hw⟩⟩ := h
  · exact ⟨n, hg.noted _ hn, .inl (hg.leaf n hl)⟩
  · exact ⟨n, hg.noted _ hn, .inr (.inl (hs n hst hsee))⟩
  · exact ⟨n, hg.noted _ hn, .inr (.inr ⟨p, hg.root n p hp, .inl (hg.complete p hc)⟩)⟩
  · exact ⟨n, hg.noted _ hn, .inr (.inr ⟨p, hg.root n p hp, .inr (hg.parents p x hw)⟩)⟩

theorem Sound.searching (h : g.Sound) (ha : g.Alone) (hs : g.stack = []) (hp : g.path = []) :
    g.Searching where
  toSound := h
  alone := ha
  search := by
    rw [hs, trail, hp]
    exact .nil
  marked x hx := by
    rw [hs] at hx
    cases hx
  frames f hf := by
    rw [hp] at hf
    cases hf
  left x hx := by
    rw [hs] at hx
    cases hx
  sees d hd := by
    rw [hs] at hd
    cases hd

namespace Searching

theorem mem_stack (h : g.Searching) {f : Frame} (hf : f ∈ g.path) : f.module ∈ g.stack :=
  h.search.along _ (List.mem_map_of_mem hf)

theorem evaluating (h : g.Searching) {f : Frame} (hf : f ∈ g.path) :
    (g.fields f.module).status = .evaluating := (h.open_iff _).2 (h.mem_stack hf)

end Searching

/-- The module being visited can run when its requests are handled and all that it waits for is
complete. -/
theorem Searching.provided {f : Frame} {path : List Frame} (h : g.Searching)
    (hpath : g.path = f :: path) (htodo : f.todo = [])
    (hc : ∀ d, f.module ∈ (g.fields d).parents → g.Complete d) : g.Provided f.module := by
  intro r hr
  have hf := h.frames f (hpath ▸ List.mem_cons_self ..)
  have hs := h.search
  rw [trail, hpath] at hs
  rw [hf.requested, htodo, List.append_nil] at hr
  obtain ⟨n, hn, hl | ⟨hst, -⟩ | ⟨p, hp, hp' | hw⟩⟩ := hf.handled r hr
  · exact ⟨n, hn, .inl (.inl hl)⟩
  · exact ⟨n, hn, .inr (hs.reaches_head _ n hst rfl)⟩
  · exact ⟨n, hn, .inl (.inr ⟨p, hp, hp'⟩)⟩
  · exact ⟨n, hn, .inl (.inr ⟨p, hp, hc p hw⟩)⟩

/-! ## Changes that the search does not notice -/

/-- A change from one search to another one that keeps the stack and what the modules on it have
seen. The path may have changed. -/
structure Carries (g g' : Graph) : Prop extends Grows g g' where
  stack : ∀ x ∈ g.stack, x ∈ g'.stack
  sees : ∀ x ∈ g.stack, ∀ n ∈ g.stack, g.Sees x n → g'.Sees x n

structure SameWork (g g' : Graph) (x : ModuleId) : Prop where
  requested : (g'.fields x).requested = (g.fields x).requested
  order : (g'.fields x).order = (g.fields x).order
  starts : g'.starts x = g.starts x

theorem SameWork.of_fields (h : g'.fields x = g.fields x) (hs : g'.starts x = g.starts x) :
    g.SameWork g' x := ⟨by rw [h], by rw [h], hs⟩

/-- If the modules on the stack keep their times and what they reach does not become later, then
they see what they have seen. -/
theorem Grows.carries (h : g.Grows g') (hstack : g'.stack = g.stack)
    (htrail : ∀ a ∈ g'.trail, a ∈ g.trail) (htrail' : ∀ a ∈ g.trail, a ∈ g.stack)
    (hvisit : ∀ x ∈ g.stack, g'.visitOf x = g.visitOf x)
    (hlow : ∀ x ∈ g.stack, g'.lowOf x ≤ g.lowOf x) : g.Carries g' where
  toGrows := h
  stack x hx := hstack ▸ hx
  sees x hx n hn hs := by
    refine ⟨?_, fun a ha => ?_⟩
    · rw [hvisit n hn]
      exact (hlow x hx).trans hs.1
    · rw [hvisit n hn, hvisit x hx, hvisit a (htrail' a (htrail a ha))]
      exact hs.2 a (htrail a ha)

theorem Handled.carries (h : g.Handled x r) (hc : g.Carries g') (hx : x ∈ g.stack) :
    g'.Handled x r := h.mono hc.toGrows fun n hn hs => ⟨hc.stack n hn, hc.sees x hx n hn hs⟩

theorem Framed.carries {f : Frame} (h : g.Framed f) (hc : g.Carries g')
    (hf : f.module ∈ g.stack) (hw : g.SameWork g' f.module) : g'.Framed f where
  requested := by rw [hw.requested, h.requested]
  handled r hr := (h.handled r hr).carries hc hf
  fresh e := by
    rw [hw.order, hw.starts]
    exact h.fresh e

theorem Left.carries (h : g.Left x) (hc : g.Carries g') (hx : x ∈ g.stack)
    (hw : g.SameWork g' x) : g'.Left x := by
  refine ⟨fun ho => ?_, fun r hr => ?_⟩
  · rw [hw.order] at ho
    rw [hw.starts]
    exact ⟨(h.1 ho).1, hc.noted _ (h.1 ho).2⟩
  · rw [hw.requested] at hr
    exact (h.2 r hr).carries hc hx

/-! ## Calm changes -/

/-- A change that evaluation does not notice, whatever it is in the middle of. -/
structure Calm (g g' : Graph) : Prop extends Undisturbed g g' where
  path : g'.path = g.path
  visits : g'.visits = g.visits
  ancestor : ∀ x, ¬(g.fields x).status.IsIdle → (g'.fields x).ancestor = (g.fields x).ancestor

theorem Calm.trans (h : g.Calm g') (h' : g'.Calm g'') : g.Calm g'' where
  noted e he := h'.noted e (h.noted e he)
  leaf x hx := h'.leaf x (h.leaf x hx)
  threw x e hx := h'.threw x e (h.threw x e hx)
  requested x r hr := h'.requested x r (h.requested x r hr)
  idle x hx := h'.idle x (h.idle x hx).1
  awake x hx := by
    obtain ⟨⟨a, c, ha⟩, hs⟩ := h.awake x hx
    obtain ⟨⟨a', c', ha'⟩, hs'⟩ := h'.awake x ((h.awake_iff x).not.2 hx)
    exact ⟨⟨a', c', by rw [ha', ha]⟩, hs'.trans hs⟩
  size := h.size.trans h'.size
  nextTurn := h'.nextTurn.trans h.nextTurn
  stack := h'.stack.trans h.stack
  ready := h'.ready.trans h.ready
  released := h'.released.trans h.released
  debt := h'.debt.trans h.debt
  doom := h'.doom.trans h.doom
  path := h'.path.trans h.path
  visits := h'.visits.trans h.visits
  ancestor x hx := (h'.ancestor x ((h.awake_iff x).not.2 hx)).trans (h.ancestor x hx)

namespace Searching

theorem calm (h : g.Searching) (hu : g.Calm g') : g'.Searching := by
  have htrail : g'.trail = g.trail := by rw [trail, hu.path, trail]
  have hawake : ∀ x ∈ g.stack, ¬(g.fields x).status.IsIdle := fun x hx =>
    Status.awake_of_evaluating ((h.open_iff x).2 hx)
  have hfields : ∀ x ∈ g.stack, (g'.fields x).visit = (g.fields x).visit ∧ g.SameWork g' x := by
    intro x hx
    obtain ⟨⟨a, c, ha⟩, hs⟩ := hu.awake x (hawake x hx)
    rw [ha]
    exact ⟨rfl, by rw [ha], by rw [ha], hs⟩
  have hvisit : ∀ x ∈ g.stack, g'.visitOf x = g.visitOf x := fun x hx => by
    rw [visitOf, (hfields x hx).1, visitOf]
  have hlow : ∀ x ∈ g.stack, g'.lowOf x = g.lowOf x := fun x hx => by
    rw [lowOf, hu.ancestor x (hawake x hx), lowOf]
  have hparents : ∀ d, (g'.fields d).parents = (g.fields d).parents :=
    fun d => (hu.progress h.toSound d).2.2.2
  have hc : g.Carries g' := (hu.grows h.toSound).carries hu.stack (by simp [htrail])
    h.search.along hvisit fun x hx => (hlow x hx).le
  refine ⟨hu.sound h.toSound, ⟨?_, ?_, ?_, ?_⟩, ?_, fun x hx => ?_, fun f hf => ?_,
    fun x hx hp => ?_, fun d hd x hx => ?_⟩
  · rw [hu.ready, h.alone.ready]
  · rw [hu.released, h.alone.released]
  · rw [hu.debt, h.alone.debt]
  · rw [hu.doom, h.alone.doom]
  · rw [hu.stack, htrail, hu.visits]
    refine h.search.mono hc.requests (fun x _ y hy _ _ ht ho => ?_) hvisit hlow
    rw [(hfields y hy).2.order] at ho
    rw [hparents]
    exact ht ho
  · rw [hu.stack] at hx
    rw [(hfields x hx).1, hu.ancestor x (hawake x hx)]
    exact h.marked x hx
  · rw [hu.path] at hf
    exact (h.frames f hf).carries hc (h.mem_stack hf) (hfields _ (h.mem_stack hf)).2
  · rw [hu.stack] at hx
    rw [htrail] at hp
    exact (h.left x hx hp).carries hc hx (hfields x hx).2
  · rw [hu.stack] at hd
    rw [hparents] at hx
    exact hc.sees x ((h.awaits d x hx).opened hd) d hd (h.sees d hd x hx)

end Searching

/-! ## Running a body -/

/-- A body was started and made its calls, or an error came first. -/
inductive Ran (g : Graph) (m : ModuleId) (g' : Graph) : Prop
  | refused : g.Calm g' → Ran g m g'
  | started {g₀ : Graph} {b : Machine Unit Unit} :
      g.Calm g₀ → (g₀.note (.started m b)).Calm g' → Ran g m g'

theorem Ran.trans (h : g.Ran m g') (h' : g'.Calm g'') : g.Ran m g'' := by
  obtain hu | ⟨hu, hu'⟩ := h
  · exact .refused (hu.trans h')
  · exact .started hu (hu'.trans h')

theorem Ran.after (h : g'.Ran m g'') (h' : g.Calm g') : g.Ran m g'' := by
  obtain hu | ⟨hu, hu'⟩ := h
  · exact .refused (h'.trans hu)
  · exact .started (h'.trans hu) hu'

theorem Ran.fields (h : g.Ran m g') (hx : ¬(g.fields x).status.IsIdle) :
    ∃ a c, g'.fields x = { g.fields x with ancestor := a, capability := c } := by
  obtain hu | ⟨hu, hu'⟩ := h
  · exact (hu.awake x hx).1
  · obtain ⟨a, c, ha⟩ := (hu.awake x hx).1
    obtain ⟨a', c', ha'⟩ := (hu'.awake x ((hu.awake_iff x).not.2 hx)).1
    exact ⟨a', c', by rw [ha', note, ha]⟩

theorem Ran.noted (h : g.Ran m g') {e : Entry} (he : e ∈ g.journal) : e ∈ g'.journal := by
  obtain hu | ⟨hu, hu'⟩ := h
  · exact hu.noted e he
  · exact hu'.noted e (mem_note (hu.noted e he))

theorem Sound.ran (h : g.Sound) (hr : g.Ran m g') (hm : g.Startable m) : g'.Sound := by
  obtain hu | @⟨g₀, b, hu, hu'⟩ := hr
  · exact hu.sound h
  · exact hu'.sound ((hu.sound h).begin b (hm.undisturbed h hu.toUndisturbed))

end ModuleGraph.Graph
