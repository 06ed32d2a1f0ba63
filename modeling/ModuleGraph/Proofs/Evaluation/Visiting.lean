import ModuleGraph.Proofs.Evaluation.Search

/-! # Visiting modules

A module is put on the path, its requests are handled one after the other, and it runs or gets a
turn. A module that was left open tells the one above it what it reaches. -/

namespace ModuleGraph.Graph

open Relation

variable {g g' : Graph} {m n x y d p q : ModuleId} {r : String} {f f' : Frame}
variable {path : List Frame}

namespace Searching

/-- What stands beside the fields of a module that is put on the path. -/
theorem alone_of_fields (h : g.Searching) (hready : g'.ready = g.ready)
    (hreleased : g'.released = g.released) (hdebt : g'.debt = g.debt) (hdoom : g'.doom = g.doom) :
    g'.Alone :=
  ⟨hready.trans h.alone.ready, hreleased.trans h.alone.released, hdebt.trans h.alone.debt,
    hdoom.trans h.alone.doom⟩

theorem enter (h : g.Searching) (hm : (g.fields m).status.IsIdle) (hsize : m.index < g.size)
    (hcyclic : g.cyclic m) (hedge : ∀ f ∈ g.path.head?, g.Requests f.module m) :
    (g.enter m).Searching := by
  have hset := sets_enter g m
  have hidle := (h.shaped m).idle hm
  have hms : m ∉ g.stack := fun hs => by
    rw [← h.open_iff] at hs
    rw [hs] at hm
    exact hm
  have hne : ∀ x ∈ g.stack, x ≠ m := fun x hx e => hms (e ▸ hx)
  have hfields : ∀ x ∈ g.stack, (g.enter m).fields x = g.fields x := fun x hx => hset.2 x (hne x hx)
  have hvisit : ∀ x ∈ g.stack, (g.enter m).visitOf x = g.visitOf x := fun x hx => by
    rw [visitOf, hfields x hx, visitOf]
  have hlow : ∀ x ∈ g.stack, (g.enter m).lowOf x = g.lowOf x := fun x hx => by
    rw [lowOf, hfields x hx, lowOf]
  have hvisitm : (g.enter m).visitOf m = g.visits := by
    rw [visitOf, hset.1]
    rfl
  have hgrows := grows_enter h.toSound hm
  have hc : g.Carries (g.enter m) := by
    refine ⟨hgrows, fun x hx => List.mem_cons_of_mem _ hx, fun x hx n hn hs => ⟨?_, ?_⟩⟩
    · rw [hlow x hx, hvisit n hn]
      exact hs.1
    · intro a ha hlt
      rw [hvisit n hn]
      obtain rfl | ha := List.mem_cons.1 ha
      · rw [hvisitm]
        exact h.search.numbered n hn
      · rw [hvisit x hx, hvisit a (h.search.along a ha)] at hlt
        rw [hvisit a (h.search.along a ha)]
        exact hs.2 a ha hlt
  have hwork : ∀ x ∈ g.stack, g.SameWork (g.enter m) x :=
    fun x hx => .of_fields (hfields x hx) rfl
  refine ⟨h.toSound.enter hm hcyclic hsize h.alone.debt, h.alone_of_fields rfl rfl rfl rfl, ?_,
    fun x hx => ?_, fun f hf => ?_, fun x hx hp => ?_, fun d hd x hx => ?_⟩
  · refine (h.search.mono hgrows.requests (fun x _ y hy _ _ ht ho => ?_) hvisit hlow).enter hms
      (fun p hp => ?_) hvisitm ?_
    · rw [hfields y hy] at ho ⊢
      exact ht ho
    · rw [trail, List.head?_map, Option.mem_map] at hp
      obtain ⟨f, hf, rfl⟩ := hp
      exact hgrows.requests _ _ (hedge f hf)
    · rw [lowOf, hset.1]
      rfl
  · obtain rfl | hx := List.mem_cons.1 hx
    · rw [hset.1]
      exact ⟨rfl, rfl⟩
    · rw [hfields x hx]
      exact h.marked x hx
  · obtain rfl | hf := List.mem_cons.1 hf
    · refine ⟨by rw [hset.1]; rfl, fun r hr => (by cases hr), fun _ => ?_⟩
      rw [hset.1]
      exact ⟨hidle.1.2.2.1, hidle.2 hcyclic⟩
    · exact (h.frames f hf).carries hc (h.mem_stack hf) (hwork _ (h.mem_stack hf))
  · obtain ⟨hxm, hp⟩ := not_or.1 fun e => hp (List.mem_cons.2 e)
    have hx := (List.mem_cons.1 hx).resolve_left hxm
    exact (h.left x hx hp).carries hc hx (hwork x hx)
  · obtain rfl | hd := List.mem_cons.1 hd
    · rw [hset.1] at hx
      rw [show (opening (g.fields d) g.visits).parents = [] from hidle.1.2.2.2] at hx
      cases hx
    · rw [hfields d hd] at hx
      exact hc.sees x ((h.awaits d x hx).opened hd) d hd (h.sees d hd x hx)

/-! ## The module being visited -/

theorem reframe (h : g.Searching) (hpath : g.path = f :: path) (hm : f'.module = f.module)
    (hf : g.Framed f → g.Framed f') : ({ g with path := f' :: path } : Graph).Searching := by
  have htrail : ({ g with path := f' :: path } : Graph).trail = g.trail := by
    rw [trail, trail, hpath, List.map_cons, List.map_cons, hm]
  have hgrows : g.Grows { g with path := f' :: path } := .of_fields rfl rfl rfl rfl
  have hsees : ∀ x n, g.Sees x n → ({ g with path := f' :: path } : Graph).Sees x n := by
    intro x n hs
    refine ⟨hs.1, fun a ha => ?_⟩
    rw [htrail] at ha
    exact hs.2 a ha
  have hc : g.Carries { g with path := f' :: path } :=
    ⟨hgrows, fun _ hx => hx, fun x _ n _ => hsees x n⟩
  have hframed : ∀ f, g.Framed f → ({ g with path := f' :: path } : Graph).Framed f :=
    fun f hf => ⟨hf.requested, fun r hr => (hf.handled r hr).mono hgrows fun n hn hs =>
      ⟨hn, hsees _ n hs⟩, hf.fresh⟩
  refine ⟨h.toSound.beside (fun _ _ _ _ hx => .inr hx) h.balanced (fun _ hx _ => hx) h.running,
    h.alone_of_fields rfl rfl rfl rfl, ?_, h.marked, fun f₁ hf₁ => ?_, fun x hx hp => ?_,
    fun d hd x hx => hsees x d (h.sees d hd x hx)⟩
  · rw [htrail]
    exact h.search.mono hgrows.requests (fun _ _ _ _ _ _ ht => ht) (fun _ _ => rfl) fun _ _ => rfl
  · refine hframed f₁ ?_
    obtain rfl | hf₁ := List.mem_cons.1 hf₁
    · exact hf (h.frames f (hpath ▸ List.mem_cons_self ..))
    · exact h.frames f₁ (hpath ▸ List.mem_cons_of_mem _ hf₁)
  · rw [htrail] at hp
    exact (h.left x hx hp).carries hc hx ⟨rfl, rfl, rfl⟩

theorem advance {asked todo : List String} {fresh : Bool} (h : g.Searching)
    (hpath : g.path = ⟨m, asked, r :: todo, fresh⟩ :: path) (hr : g.Handled m r) :
    ({ g with path := ⟨m, asked ++ [r], todo, fresh⟩ :: path } : Graph).Searching := by
  refine h.reframe hpath rfl fun hf => ⟨?_, fun r' hr' => ?_, hf.fresh⟩
  · rw [hf.requested]
    simp
  · rcases List.mem_append.1 hr' with hr' | hr'
    · exact hf.handled r' hr'
    · rw [List.mem_singleton.1 hr']
      exact hr

/-- The modules above the one being visited are others. -/
theorem module_ne (h : g.Searching) (hpath : g.path = f :: path) {f₁ : Frame} (hf : f₁ ∈ path) :
    f₁.module ≠ f.module := fun e => by
  have hs := h.search
  rw [trail, hpath] at hs
  have hmem : f₁.module ∈ path.map (·.module) := List.mem_map_of_mem hf
  rw [e] at hmem
  exact hs.not_mem_path hmem

theorem head_evaluating (h : g.Searching) (hpath : g.path = f :: path) :
    (g.fields f.module).status = .evaluating := h.evaluating (hpath ▸ List.mem_cons_self ..)

theorem head_mem_trail (hpath : g.path = f :: path) : f.module ∈ g.trail := by
  rw [trail, hpath]
  exact List.mem_cons_self ..

/-- The frames after the module being visited has got its turn or was started. -/
theorem framed_of_sameWork (h : g.Searching) (hpath : g.path = f :: path) (hf : f.fresh = false)
    (hc : g.Carries g') (hreq : (g'.fields f.module).requested = (g.fields f.module).requested)
    (hwork : ∀ x, x ≠ f.module → g.SameWork g' x) : ∀ f₁ ∈ g.path, g'.Framed f₁ := by
  intro f₁ hf₁
  have hold := h.frames f₁ hf₁
  have hf₁' : f₁ ∈ f :: path := hpath ▸ hf₁
  obtain rfl | hmem := List.mem_cons.1 hf₁'
  · refine ⟨hreq.trans hold.requested, fun r hr => ?_, fun e => ?_⟩
    · exact (hold.handled r hr).carries hc (h.mem_stack hf₁)
    · rw [hf] at e
      cases e
  · exact hold.carries hc (h.mem_stack hf₁) (hwork _ (h.module_ne hpath hmem))

theorem takeTurn (h : g.Searching) (hpath : g.path = f :: path) (hf : f.fresh = false)
    (ho : (g.fields f.module).order = .unset) (hstarts : g.starts f.module = 0)
    (hp0 : (g.fields f.module).pending = some 0 → (g.fields f.module).hasAwait) :
    (g.takeTurn f.module).Searching := by
  have hm := h.head_evaluating hpath
  have hset := sets_takeTurn g f.module
  have hs := h.toSound.takeTurn hm ho hstarts (by rw [h.alone.ready]; exact List.not_mem_nil) hp0
  have hgrows := grows_takeTurn (h.shaped _) hm
  have hvisit : ∀ x, (g.takeTurn f.module).visitOf x = g.visitOf x :=
    hset.field (fun c => c.visit.getD 0) rfl
  have hlow : ∀ x, (g.takeTurn f.module).lowOf x = g.lowOf x :=
    hset.field (fun c => c.ancestor.getD 0) rfl
  have hc : g.Carries (g.takeTurn f.module) := hgrows.carries rfl (fun _ ha => ha) h.search.along
    (fun x _ => hvisit x) fun x _ => (hlow x).le
  have hwork : ∀ x, x ≠ f.module → g.SameWork (g.takeTurn f.module) x :=
    fun x hx => .of_fields (hset.2 x hx) rfl
  refine ⟨hs, h.alone_of_fields rfl rfl rfl rfl, ?_, fun x hx => ?_, fun f₁ hf₁ => ?_,
    fun x hx hp => ?_, fun d hd x hx => ?_⟩
  · refine h.search.mono hgrows.requests (fun x _ y _ hyp _ ht ho => ?_) (fun x _ => hvisit x)
      fun x _ => hlow x
    have hy : y ≠ f.module := fun e => hyp (e ▸ head_mem_trail hpath)
    rw [hset.2 y hy] at ho ⊢
    exact ht ho
  · rw [hset.field (·.visit) rfl, hset.field (·.ancestor) rfl]
    exact h.marked x hx
  · exact h.framed_of_sameWork hpath hf hc (hset.field (·.requested) rfl _) hwork f₁ hf₁
  · exact (h.left x hx hp).carries hc hx (hwork x fun e => hp (e ▸ head_mem_trail hpath))
  · rw [hset.field (·.parents) rfl] at hx
    exact hc.sees x ((h.awaits d x hx).opened hd) d hd (h.sees d hd x hx)

theorem begin (h : g.Searching) (hpath : g.path = f :: path) (hf : f.fresh = false)
    (b : Machine Unit Unit) (hs : g.Startable f.module) :
    (g.note (.started f.module b)).Searching := by
  have hm := h.head_evaluating hpath
  have hs := h.toSound.begin b hs
  have hset : g.Sets (g.note (.started f.module b)) f.module (g.fields f.module) :=
    ⟨rfl, fun _ _ => rfl⟩
  have hgrows : g.Grows (g.note (.started f.module b)) :=
    hset.grows (fun _ he => mem_note he) (fun _ hl => hl) (fun _ _ ht => ht) rfl rfl
      (fun e => (e ((h.shaped _).opened hm).2.1).elim) (fun _ hx => hx) fun hc => hc
  have hcarries : g.Carries (g.note (.started f.module b)) :=
    hgrows.carries rfl (fun _ ha => ha) h.search.along (fun _ _ => rfl) fun _ _ => le_rfl
  have hwork : ∀ x, x ≠ f.module → g.SameWork (g.note (.started f.module b)) x :=
    fun x hx => .of_fields rfl (by rw [starts_note_started, if_neg hx, Nat.add_zero])
  refine ⟨hs, h.alone_of_fields rfl rfl rfl rfl, ?_, h.marked, fun f₁ hf₁ => ?_,
    fun x hx hp => ?_, h.sees⟩
  · exact h.search.mono hgrows.requests (fun _ _ _ _ _ _ ht => ht) (fun _ _ => rfl) fun _ _ => rfl
  · exact h.framed_of_sameWork hpath hf hcarries rfl hwork f₁ hf₁
  · exact (h.left x hx hp).carries hcarries hx (hwork x fun e => hp (e ▸ head_mem_trail hpath))

theorem ran (h : g.Searching) (hr : g.Ran f.module g') (hpath : g.path = f :: path)
    (hf : f.fresh = false) (hm : g.Startable f.module) : g'.Searching := by
  obtain hu | @⟨g₀, b, hu, hu'⟩ := hr
  · exact h.calm hu
  · exact ((h.calm hu).begin (hu.path.trans hpath) hf b
      (hm.undisturbed h.toSound hu.toUndisturbed)).calm hu'

end Searching

/-! ## What the module being visited comes to know -/

def reach (g : Graph) (m n : ModuleId) : Graph :=
  g.set m ((g.fields m).reach (g.fields n).ancestor)

theorem sets_reach (g : Graph) (m n : ModuleId) :
    g.Sets (g.reach m n) m ((g.fields m).reach (g.fields n).ancestor) := sets_set g m _

theorem field_reach {β : Type} (g : Graph) (m n : ModuleId) (f : Cyclic → β)
    (hf : ∀ c a, f { c with ancestor := a } = f c) (x : ModuleId) :
    f ((g.reach m n).fields x) = f (g.fields x) := (sets_reach g m n).field f (hf _ _) x

theorem lowOf_reach (hm : (g.fields m).ancestor.isSome) (hn : (g.fields n).ancestor.isSome) :
    (g.reach m n).lowOf m = min (g.lowOf m) (g.lowOf n) := by
  obtain ⟨i, hi⟩ := Option.isSome_iff_exists.1 hm
  obtain ⟨j, hj⟩ := Option.isSome_iff_exists.1 hn
  rw [lowOf, (sets_reach g m n).1, lowOf, lowOf]
  simp [Cyclic.reach, hi, hj]

theorem lowOf_reach_of_ne (h : x ≠ m) : (g.reach m n).lowOf x = g.lowOf x := by
  rw [lowOf, (sets_reach g m n).2 x h, lowOf]

theorem undisturbed_reach (h : g.Sound) (hm : ¬(g.fields m).status.IsIdle) (n : ModuleId) :
    g.Undisturbed (g.reach m n) where
  noted _ he := he
  leaf _ hl := hl
  threw _ _ ht := ht
  requested x r hr := by rwa [field_reach g m n (·.requested) fun _ _ => rfl]
  idle x hi := by
    have hx : x ≠ m := fun e => hm (e ▸ hi)
    rw [(sets_reach g m n).2 x hx]
    exact ⟨hi, (h.shaped x).idle hi⟩
  awake x _ := by
    by_cases e : x = m
    · subst e
      exact ⟨⟨_, _, (sets_reach g x n).1⟩, rfl⟩
    · exact ⟨⟨_, _, (sets_reach g m n).2 x e⟩, rfl⟩
  size := le_rfl
  nextTurn := rfl
  stack := rfl
  ready := rfl
  released := rfl
  debt := rfl
  doom := rfl

theorem lowOf_reach_le (hm : (g.fields m).ancestor.isSome) (hn : (g.fields n).ancestor.isSome)
    (x : ModuleId) : (g.reach m n).lowOf x ≤ g.lowOf x := by
  by_cases e : x = m
  · rw [e, lowOf_reach hm hn]
    exact min_le_left _ _
  · rw [lowOf_reach_of_ne e]

namespace Searching

theorem marked_reach (h : g.Searching) (hm : m ∈ g.stack) (hn : n ∈ g.stack) (hx : x ∈ g.stack) :
    ((g.reach m n).fields x).visit.isSome ∧ ((g.reach m n).fields x).ancestor.isSome := by
  rw [field_reach g m n (·.visit) fun _ _ => rfl]
  refine ⟨(h.marked x hx).1, ?_⟩
  by_cases e : x = m
  · obtain ⟨i, hi⟩ := Option.isSome_iff_exists.1 (h.marked m hm).2
    obtain ⟨j, hj⟩ := Option.isSome_iff_exists.1 (h.marked n hn).2
    rw [e, (sets_reach g m n).1]
    simp [Cyclic.reach, hi, hj]
  · rw [(sets_reach g m n).2 x e]
    exact (h.marked x hx).2

/-- The module being visited notes what an open one reaches. -/
theorem reach (h : g.Searching) (hpath : g.path = f :: path) (hn : n ∈ g.stack)
    (hedge : g.Requests f.module n) :
    (g.reach f.module n).Searching ∧ (g.reach f.module n).Sees f.module n := by
  have hm := h.head_evaluating hpath
  have hms := (h.open_iff _).1 hm
  have hu := undisturbed_reach h.toSound (Status.awake_of_evaluating hm) n
  have hvisit : ∀ x, (g.reach f.module n).visitOf x = g.visitOf x :=
    fun x => field_reach g f.module n (fun c => c.visit.getD 0) (fun _ _ => rfl) x
  have hlow : ∀ x, (g.reach f.module n).lowOf x ≤ g.lowOf x :=
    lowOf_reach_le (h.marked _ hms).2 (h.marked n hn).2
  have hlowm := lowOf_reach (h.marked _ hms).2 (h.marked n hn).2
  have hparents : ∀ x, ((g.reach f.module n).fields x).parents = (g.fields x).parents :=
    fun x => field_reach g f.module n (·.parents) (fun _ _ => rfl) x
  have hc : g.Carries (g.reach f.module n) := (hu.grows h.toSound).carries rfl (fun _ ha => ha)
    h.search.along (fun x _ => hvisit x) fun x _ => hlow x
  have hwork : ∀ x, g.SameWork (g.reach f.module n) x := fun x =>
    ⟨field_reach g f.module n (·.requested) (fun _ _ => rfl) x,
      field_reach g f.module n (·.order) (fun _ _ => rfl) x, rfl⟩
  have hsearch := h.search
  rw [trail, hpath] at hsearch
  refine ⟨⟨hu.sound h.toSound, h.alone_of_fields rfl rfl rfl rfl, ?_, fun x hx => ?_,
    fun f₁ hf₁ => ?_, fun x hx hp => ?_, fun d hd x hx => ?_⟩, ?_, fun a ha hlt => ?_⟩
  · have hreached : Search g.Requests g.Tied g.visitOf (g.reach f.module n).lowOf g.visits g.stack
        (f.module :: path.map (·.module)) :=
      hsearch.reach hn hedge hlowm fun x hx => lowOf_reach_of_ne hx
    rw [show (g.reach f.module n).trail = f.module :: path.map (·.module) from by
      rw [trail, show (g.reach f.module n).path = g.path from rfl, hpath, List.map_cons]]
    refine hreached.mono hc.requests (fun x _ y _ _ _ ht ho => ?_) (fun x _ => hvisit x)
      fun _ _ => rfl
    rw [(hwork y).order] at ho
    rw [hparents]
    exact ht ho
  · exact h.marked_reach hms hn hx
  · exact (h.frames f₁ hf₁).carries hc (h.mem_stack hf₁) (hwork _)
  · exact (h.left x hx hp).carries hc hx (hwork x)
  · rw [hparents] at hx
    exact hc.sees x ((h.awaits d x hx).opened hd) d hd (h.sees d hd x hx)
  · rw [hlowm, hvisit]
    exact (min_le_right _ _).trans (h.search.low_le n hn)
  · -- The module being visited is the latest of the path.
    rw [hvisit, hvisit] at hlt
    have ha' : a ∈ f.module :: path.map (·.module) := by
      rw [trail, show (g.reach f.module n).path = g.path from rfl, hpath] at ha
      exact ha
    rcases List.mem_cons.1 ha' with rfl | ha'
    · exact absurd hlt (Nat.lt_irrefl _)
    · have hlt' : g.visitOf a < g.visitOf f.module := hsearch.path_lt ha'
      omega

end Searching

theorem Sees.await (h : g.Sees x n) (m d : ModuleId) : (g.await m d).Sees x n := by
  have hvisit : ∀ x, (g.await m d).visitOf x = g.visitOf x :=
    field_await g m d (fun c => c.visit.getD 0) fun _ _ _ => rfl
  refine ⟨?_, fun a ha => ?_⟩
  · rw [hvisit, lowOf, field_await g m d (fun c => c.ancestor) fun _ _ _ => rfl]
    exact h.1
  · rw [trail, (side_await g m d).2.2.1] at ha
    rw [hvisit, hvisit, hvisit]
    exact h.2 a ha

namespace Searching

theorem await (h : g.Searching) (hpath : g.path = f :: path) (hf : f.fresh = true)
    (he : (g.fields d).error = none) (hroot : ∀ q, (g.fields d).root = some q → q = d)
    (hreach : ReflTransGen g.Requests f.module d) (hsees : d ∈ g.stack → g.Sees f.module d) :
    (g.await f.module d).Searching := by
  have hmem : f ∈ g.path := hpath ▸ List.mem_cons_self ..
  obtain ⟨ho, hstarts⟩ := (h.frames f hmem).fresh hf
  have hm := h.head_evaluating hpath
  obtain ⟨hs, hgrows⟩ :=
    h.toSound.await hm ho hstarts (by rw [h.alone.ready]; exact List.not_mem_nil)
    he (by rw [h.alone.released]; exact List.not_mem_nil) hroot hreach
  obtain ⟨hj, hstack, hpath', hvisits, hready, hreleased, hdebt, hdoom⟩ := side_await g f.module d
  have hvisit : ∀ x, (g.await f.module d).visitOf x = g.visitOf x :=
    field_await g f.module d (fun c => c.visit.getD 0) fun _ _ _ => rfl
  have hlow : ∀ x, (g.await f.module d).lowOf x = g.lowOf x :=
    field_await g f.module d (fun c => c.ancestor.getD 0) fun _ _ _ => rfl
  have htrail : (g.await f.module d).trail = g.trail := by rw [trail, hpath', trail]
  have hc : g.Carries (g.await f.module d) := hgrows.carries hstack (by simp [htrail])
    h.search.along (fun x _ => hvisit x) fun x _ => (hlow x).le
  have hwork : ∀ x, g.SameWork (g.await f.module d) x := fun x =>
    ⟨field_await g f.module d (·.requested) (fun _ _ _ => rfl) x,
      field_await g f.module d (·.order) (fun _ _ _ => rfl) x, by rw [starts, hj, starts]⟩
  refine ⟨hs, h.alone_of_fields hready hreleased hdebt hdoom, ?_, fun x hx => ?_, fun f₁ hf₁ => ?_,
    fun x hx hp => ?_, fun y hy x hx => ?_⟩
  · rw [hstack, htrail, hvisits]
    refine h.search.mono hc.requests (fun x _ y _ _ _ ht hoy => ?_) (fun x _ => hvisit x)
      fun x _ => hlow x
    rw [(hwork y).order] at hoy
    exact hc.parents y x (ht hoy)
  · rw [hstack] at hx
    rw [field_await g f.module d (·.visit) fun _ _ _ => rfl,
      field_await g f.module d (·.ancestor) fun _ _ _ => rfl]
    exact h.marked x hx
  · rw [hpath'] at hf₁
    exact (h.frames f₁ hf₁).carries hc (h.mem_stack hf₁) (hwork _)
  · rw [hstack] at hx
    rw [htrail] at hp
    exact (h.left x hx hp).carries hc hx (hwork x)
  · rw [hstack] at hy
    by_cases hmd : f.module = d
    · -- A module without a turn does not wait for itself.
      rw [Graph.await, if_neg (by rw [← hmd, ho]; simp [AsyncOrder.isTurn])] at hx ⊢
      exact h.sees y hy x hx
    · rcases (mem_parents_await hmd y).1 hx with hx | ⟨-, rfl, rfl⟩
      · exact hc.sees x ((h.awaits y x hx).opened hy) y hy (h.sees y hy x hx)
      · exact hc.sees _ (h.mem_stack hmem) y hy (hsees hy)

/-- What a module waits for after it was asked to wait for the root of a cycle. -/
theorem awaited (h : g.Searching) (hm : (g.fields m).order = .unset)
    (he : (g.fields d).error = none) (hroot : (g.fields d).root = some d) :
    (g.await m d).Complete d ∨ m ∈ ((g.await m d).fields d).parents := by
  have hmd : m ≠ d ∨ ¬(g.fields d).order.isTurn := by
    by_cases e : m = d
    · rw [← e, hm]
      exact .inr (by simp [AsyncOrder.isTurn])
    · exact .inl e
  cases ho : (g.fields d).order with
  | turn k =>
    have hturn : (g.fields d).order.isTurn := by
      rw [ho]
      rfl
    exact .inr ((mem_parents_await (hmd.resolve_right fun e => e hturn) d).2
      (.inr ⟨hturn, rfl, rfl⟩))
  | unset =>
    rw [Graph.await, if_neg (by rw [ho]; simp [AsyncOrder.isTurn])]
    exact .inl ((h.shaped d).complete_of_unset (by rw [hroot]; simp) ho)
  | done =>
    rw [Graph.await, if_neg (by rw [ho]; simp [AsyncOrder.isTurn])]
    exact .inl ((h.shaped d).complete_of_done ho he)

end Searching

/-! ## Leaving a module open -/

/-- The module `p` goes on after it has left `m` open: it notes what `m` reaches, and it waits for
`m` if that one has a turn. -/
def leave (g : Graph) (p m : ModuleId) (path : List Frame) : Graph :=
  { (g.reach p m).await p m with path }

theorem field_leave {β : Type} (g : Graph) (p m : ModuleId) (path : List Frame) (φ : Cyclic → β)
    (hφ : ∀ c a k ps, φ { c with ancestor := a, pending := k, parents := ps } = φ c)
    (x : ModuleId) : φ ((g.leave p m path).fields x) = φ (g.fields x) :=
  (field_await (g.reach p m) p m φ (fun c => hφ c c.ancestor) x).trans
    (field_reach g p m φ (fun c a => hφ c a c.pending c.parents) x)

theorem lowOf_leave (g : Graph) (p m : ModuleId) (path : List Frame) (x : ModuleId) :
    (g.leave p m path).lowOf x = (g.reach p m).lowOf x :=
  field_await (g.reach p m) p m (fun c => c.ancestor.getD 0) (fun _ _ _ => rfl) x

theorem mem_parents_leave (hne : p ≠ m) (y : ModuleId) :
    x ∈ ((g.leave p m path).fields y).parents ↔
      x ∈ (g.fields y).parents ∨ (g.fields m).order.isTurn ∧ y = m ∧ x = p := by
  rw [← field_reach g p m (·.parents) (fun _ _ => rfl) y,
    ← field_reach g p m (·.order) (fun _ _ => rfl) m]
  exact mem_parents_await hne y

theorem sameWork_leave (g : Graph) (p m : ModuleId) (path : List Frame) (x : ModuleId) :
    g.SameWork (g.leave p m path) x where
  requested := field_leave g p m path (·.requested) (fun _ _ _ _ => rfl) x
  order := field_leave g p m path (·.order) (fun _ _ _ _ => rfl) x
  starts := congrArg (Journal.starts · x) (side_await (g.reach p m) p m).1

section Leave

variable {f₁ f₂ : Frame} (h : g.Searching) (hpath : g.path = f₁ :: f₂ :: path)
include h hpath

theorem Searching.mem_stack_left : f₁.module ∈ g.stack :=
  h.mem_stack (hpath ▸ List.mem_cons_self ..)

theorem Searching.mem_stack_above : f₂.module ∈ g.stack :=
  h.mem_stack (hpath ▸ List.mem_cons_of_mem _ (List.mem_cons_self ..))

theorem Searching.requests_head : g.Requests f₂.module f₁.module := by
  have hchain := h.search.chain
  rw [trail, hpath, List.map_cons, List.map_cons] at hchain
  exact (List.isChain_cons_cons.1 hchain).1

theorem Searching.sound_leave (hf : f₂.fresh = true) (path' : List Frame) :
    (g.leave f₂.module f₁.module path').Sound ∧ g.Grows (g.leave f₂.module f₁.module path') := by
  have hmem₁ : f₁ ∈ g.path := hpath ▸ List.mem_cons_self ..
  have hmem₂ : f₂ ∈ g.path := hpath ▸ List.mem_cons_of_mem _ (List.mem_cons_self ..)
  have he₂ := h.evaluating hmem₂
  obtain ⟨ho₂, hstarts₂⟩ := (h.frames f₂ hmem₂).fresh hf
  obtain ⟨herror, hroot, -⟩ := (h.shaped _).opened (h.evaluating hmem₁)
  have hu := undisturbed_reach h.toSound (m := f₂.module)
    (Status.awake_of_evaluating he₂) f₁.module
  have hfield := fun (β : Type) (φ : Cyclic → β) hφ x =>
    field_reach g f₂.module f₁.module φ hφ x
  obtain ⟨hsound, hgrows⟩ := (hu.sound h.toSound).await (m := f₂.module) (d := f₁.module)
    (by rw [hfield _ (·.status) fun _ _ => rfl, he₂])
    (by rw [hfield _ (·.order) fun _ _ => rfl, ho₂]) hstarts₂
    (show f₂.module ∉ g.ready by rw [h.alone.ready]; exact List.not_mem_nil)
    (by rw [hfield _ (·.error) fun _ _ => rfl, herror])
    (show f₁.module ∉ g.released by rw [h.alone.released]; exact List.not_mem_nil)
    (fun q hq => by rw [hfield _ (·.root) fun _ _ => rfl, hroot] at hq; cases hq)
    (.single ((hu.grows h.toSound).requests _ _ (h.requests_head hpath)))
  exact ⟨hsound.beside (fun _ _ _ _ hx => .inr hx) hsound.balanced (fun _ hx _ => hx)
    hsound.running, (hu.grows h.toSound).trans (hgrows.trans (.of_fields rfl rfl rfl rfl))⟩

/-- The module above knows the one that it has left open. -/
theorem Searching.sees_leave :
    (g.leave f₂.module f₁.module (f₂ :: path)).Sees f₂.module f₁.module := by
  have hs₁ := h.mem_stack_left hpath
  have hs₂ := h.mem_stack_above hpath
  have hvisit := field_leave g f₂.module f₁.module (f₂ :: path) (fun c => c.visit.getD 0)
    fun _ _ _ _ => rfl
  refine ⟨?_, fun a ha hlt => ?_⟩
  · rw [lowOf_leave, lowOf_reach (h.marked _ hs₂).2 (h.marked _ hs₁).2, visitOf, hvisit]
    exact (min_le_right _ _).trans (h.search.low_le _ hs₁)
  · have hupward := h.search.upward
    rw [trail, hpath, List.map_cons, List.map_cons] at hupward
    rw [visitOf, visitOf, hvisit, hvisit] at hlt
    rcases List.mem_cons.1 ha with rfl | ha
    · exact absurd hlt (Nat.lt_irrefl _)
    · have : g.visitOf a < g.visitOf f₂.module := List.rel_of_pairwise_cons hupward.of_cons ha
      exact absurd hlt (Nat.lt_asymm this)

/-- A module that has a turn is waited for by the one above. -/
theorem Searching.tied_leave :
    (g.leave f₂.module f₁.module (f₂ :: path)).Tied f₂.module f₁.module := by
  intro ho
  have hne : f₂.module ≠ f₁.module := h.module_ne hpath (List.mem_cons_self ..)
  have hdone := ((h.shaped _).opened (h.head_evaluating hpath)).2.2
  rw [(sameWork_leave ..).order] at ho
  refine (mem_parents_leave hne _).2 (.inr ⟨?_, rfl, rfl⟩)
  cases e : (g.fields f₁.module).order with
  | unset => exact (ho e).elim
  | turn k => rfl
  | done => exact (hdone e).elim

theorem Searching.search_leave (hgrows : g.Grows (g.leave f₂.module f₁.module (f₂ :: path)))
    (hlow : g.lowOf f₁.module < g.visitOf f₁.module) :
    Search (g.leave f₂.module f₁.module (f₂ :: path)).Requests
      (g.leave f₂.module f₁.module (f₂ :: path)).Tied
      (g.leave f₂.module f₁.module (f₂ :: path)).visitOf
      (g.leave f₂.module f₁.module (f₂ :: path)).lowOf g.visits g.stack
      (f₂.module :: path.map (·.module)) := by
  have hs₁ := h.mem_stack_left hpath
  have hs₂ := h.mem_stack_above hpath
  have hlow₂ : (g.leave f₂.module f₁.module (f₂ :: path)).lowOf f₂.module =
      min (g.lowOf f₂.module) (g.lowOf f₁.module) :=
    (lowOf_leave ..).trans (lowOf_reach (h.marked _ hs₂).2 (h.marked _ hs₁).2)
  have hsearch := h.search
  rw [trail, hpath, List.map_cons, List.map_cons] at hsearch
  have hkept : Search (g.leave f₂.module f₁.module (f₂ :: path)).Requests
      (g.leave f₂.module f₁.module (f₂ :: path)).Tied g.visitOf g.lowOf g.visits g.stack
      (f₁.module :: f₂.module :: path.map (·.module)) := by
    refine hsearch.mono hgrows.requests (fun x _ y _ _ _ ht ho => ?_) (fun _ _ => rfl)
      fun _ _ => rfl
    rw [(sameWork_leave ..).order] at ho
    exact hgrows.parents y x (ht ho)
  have hstep := hkept.leave hlow (h.tied_leave hpath) hlow₂ fun x hx => by
    rw [lowOf_leave, lowOf_reach_of_ne hx]
  exact hstep.mono (fun _ _ e => e) (fun _ _ _ _ _ _ e => e) (fun x _ => field_leave g _ _ _
    (fun c => c.visit.getD 0) (fun _ _ _ _ => rfl) x) fun _ _ => rfl

/-- The module being visited is left open, and the one above it goes on. -/
theorem Searching.leave (hf : f₂.fresh = true) (hleft : g.Left f₁.module)
    (hlow : g.lowOf f₁.module < g.visitOf f₁.module)
    (hg' : g' = g.leave f₂.module f₁.module (f₂ :: path)) :
    g'.Searching ∧ g'.Sees f₂.module f₁.module := by
  have hs₁ := h.mem_stack_left hpath
  have hs₂ := h.mem_stack_above hpath
  have hne : f₂.module ≠ f₁.module := h.module_ne hpath (List.mem_cons_self ..)
  obtain ⟨hsound, hgrows⟩ := h.sound_leave hpath hf (f₂ :: path)
  have hsees := h.sees_leave hpath
  have htrail : g.trail = f₁.module :: f₂.module :: path.map (·.module) := by
    rw [trail, hpath, List.map_cons, List.map_cons]
  obtain ⟨-, hstack, -, hvisits, hready, hreleased, hdebt, hdoom⟩ :=
    side_await (g.reach f₂.module f₁.module) f₂.module f₁.module
  have hfield := fun (β : Type) (φ : Cyclic → β) hφ x =>
    field_leave g f₂.module f₁.module (f₂ :: path) φ hφ x
  have hc : g.Carries (g.leave f₂.module f₁.module (f₂ :: path)) := hgrows.carries hstack
    (fun a ha => htrail ▸ List.mem_cons_of_mem _ ha) h.search.along
    (fun x _ => hfield _ (fun c => c.visit.getD 0) (fun _ _ _ _ => rfl) x) fun x _ =>
      (lowOf_leave ..).trans_le (lowOf_reach_le (h.marked _ hs₂).2 (h.marked _ hs₁).2 x)
  subst hg'
  refine ⟨⟨hsound, h.alone_of_fields hready hreleased hdebt hdoom, ?_, fun x hx => ?_,
    fun f hf => ?_, fun x hx hxp => ?_, fun d hd x hx => ?_⟩, hsees⟩
  · rw [show (g.leave f₂.module f₁.module (f₂ :: path)).stack = g.stack from hstack,
      show (g.leave f₂.module f₁.module (f₂ :: path)).visits = g.visits from hvisits]
    exact h.search_leave hpath hgrows hlow
  · have hx' : x ∈ g.stack := hstack ▸ hx
    have hmarked := h.marked_reach hs₂ hs₁ hx'
    rw [hfield _ (·.visit) fun _ _ _ _ => rfl]
    refine ⟨(h.marked x hx').1, ?_⟩
    change (((g.reach f₂.module f₁.module).await f₂.module f₁.module).fields x).ancestor.isSome
    rw [field_await _ _ _ (·.ancestor) fun _ _ _ => rfl]
    exact hmarked.2
  · have hfg : f ∈ g.path := hpath ▸ List.mem_cons_of_mem _ hf
    exact (h.frames f hfg).carries hc (h.mem_stack hfg) (sameWork_leave ..)
  · have hx' : x ∈ g.stack := hstack ▸ hx
    by_cases e : x = f₁.module
    · rw [e]
      exact hleft.carries hc hs₁ (sameWork_leave ..)
    · refine (h.left x hx' fun hp => hxp ?_).carries hc hx' (sameWork_leave ..)
      rw [htrail] at hp
      exact (List.mem_cons.1 hp).resolve_left e
  · have hd' : d ∈ g.stack := hstack ▸ hd
    rcases (mem_parents_leave hne d).1 hx with hx | ⟨-, rfl, rfl⟩
    · exact hc.sees x ((h.awaits d x hx).opened hd') d hd' (h.sees d hd' x hx)
    · exact hsees

end Leave

end ModuleGraph.Graph
