import Mathlib.Data.List.Perm.Subperm
import ModuleGraph.Proofs.Journal

/-! # A plain walk

A walk goes through modules depth first and keeps nothing but a list of those that it has seen. It
sees a module when it comes to it, goes on with what the module requests, one request after the
other, and then runs the body of the module. It passes by what it has seen and what was evaluated
before, and it stops as soon as something throws. The walk says nothing about cycles, stages or
turns: it is what the evaluation of synchronous modules is compared with. -/

namespace ModuleGraph

open Relation

def Entry.started? : Entry → Option ModuleId
  | .started m _ => some m
  | .resolved .. | .refused .. | .ended _ | .threw .. | .waited .. => none

namespace Journal

def started (j : Journal) : List ModuleId := j.filterMap Entry.started?

@[simp] theorem started_append (j k : Journal) : started (j ++ k) = started j ++ started k :=
  List.filterMap_append

theorem Answers.started_eq {j : Journal} (h : j.Answers) : started j = [] := by
  refine List.filterMap_eq_nil_iff.2 fun e he => ?_
  have := h e he
  cases e <;> simp_all [Entry.isAnswer, Entry.started?]

theorem Stable.subset {j k : Journal} (h : k.Stable) (hs : j ⊆ k) : j.Stable :=
  fun m r n n' hn hn' => h m r n n' (hs hn) (hs hn')

def Links (j : Journal) (requested : ModuleId → List String) (m n : ModuleId) : Prop :=
  ∃ r ∈ requested m, Entry.resolved m r n ∈ j

theorem Links.mono {j k : Journal} {requested : ModuleId → List String} {m n : ModuleId}
    (h : j.Links requested m n) : Links (j ++ k) requested m n := by
  obtain ⟨r, hr, hn⟩ := h
  exact ⟨r, hr, List.mem_append_left _ hn⟩

end Journal

/-- What the journal notes when the body of a module runs: its start, answers that the host gives
meanwhile, and its end. A body that waits where it must not throws a new error. -/
inductive Runs (m : ModuleId) : Journal → Except Value Unit → Prop
  | completes {before : Machine Unit Unit} {k : Journal} : k.Answers →
      Runs m (.started m before :: k ++ [.ended m]) (.ok ())
  | throws {before : Machine Unit Unit} {k : Journal} {e : Value} : k.Answers →
      Runs m (.started m before :: k ++ [.threw m e]) (.error e)
  | waits {before : Machine Unit Unit} {k : Journal} {i : ErrorId} : k.Answers →
      Runs m (.started m before :: k ++ [.waited m i]) (.error (.error i))

theorem Runs.started_eq {m : ModuleId} {k : Journal} {r : Except Value Unit} (h : Runs m k r) :
    k.started = [m] := by
  cases h with
  | completes hk | throws hk | waits hk =>
    rw [← List.singleton_append, List.append_assoc, Journal.started_append,
      Journal.started_append, hk.started_eq]
    rfl

/-- What a walk finds: the requests of each module, none for a leaf, and how each module that was
evaluated before has ended. -/
structure Terrain where
  requested : ModuleId → List String
  past : ModuleId → Option (Except Value Unit)

structure Trail where
  journal : Journal
  seen : List ModuleId

inductive Errand where
  | module (m : ModuleId)
  | requests (m : ModuleId) (todo : List String)

def Errand.subject : Errand → ModuleId
  | .module m => m
  | .requests m _ => m

namespace Terrain

variable {T : Terrain}

/-- A walk, from one point of the trail to another one. -/
inductive Walk (T : Terrain) : Trail → Errand → Except Value Unit → Trail → Prop
  /-- A module is seen once. -/
  | again {w : Trail} {m : ModuleId} : m ∈ w.seen → Walk T w (.module m) (.ok ()) w
  /-- What was evaluated before throws again what it has thrown. -/
  | before {w : Trail} {m : ModuleId} {r : Except Value Unit} : m ∉ w.seen → T.past m = some r →
      Walk T w (.module m) r w
  /-- The body runs after all requests. -/
  | body {w w' : Trail} {m : ModuleId} {r : Except Value Unit} {k : Journal} : m ∉ w.seen →
      T.past m = none →
      Walk T { w with seen := m :: w.seen } (.requests m (T.requested m)) (.ok ()) w' →
      Runs m k r → Walk T w (.module m) r { w' with journal := w'.journal ++ k }
  /-- The body does not run if a request throws. -/
  | broken {w w' : Trail} {m : ModuleId} {e : Value} : m ∉ w.seen → T.past m = none →
      Walk T { w with seen := m :: w.seen } (.requests m (T.requested m)) (.error e) w' →
      Walk T w (.module m) (.error e) w'
  | done {w : Trail} {m : ModuleId} : Walk T w (.requests m []) (.ok ()) w
  /-- The host throws when it is asked for the next request. -/
  | refused {w : Trail} {m : ModuleId} {request : String} {todo : List String} {k : Journal}
      {e : Value} : k.Answers → Entry.refused m request e ∈ w.journal ++ k →
      Walk T w (.requests m (request :: todo)) (.error e) { w with journal := w.journal ++ k }
  /-- The next request leads to a module, and then the others are left. -/
  | next {w w' w'' : Trail} {m n : ModuleId} {request : String} {todo : List String} {k : Journal}
      {r : Except Value Unit} : k.Answers → Entry.resolved m request n ∈ w.journal ++ k →
      Walk T { w with journal := w.journal ++ k } (.module n) (.ok ()) w' →
      Walk T w' (.requests m todo) r w'' → Walk T w (.requests m (request :: todo)) r w''
  /-- The next request leads to a module that throws. -/
  | stops {w w' : Trail} {m n : ModuleId} {request : String} {todo : List String} {k : Journal}
      {e : Value} : k.Answers → Entry.resolved m request n ∈ w.journal ++ k →
      Walk T { w with journal := w.journal ++ k } (.module n) (.error e) w' →
      Walk T w (.requests m (request :: todo)) (.error e) w'

/-! ## What a walk comes to -/

/-- The walk has nothing left to do for a module. -/
def Settled (T : Terrain) (w : Trail) (n : ModuleId) : Prop :=
  n ∈ w.seen ∨ T.past n = some (.ok ())

structure Gain (T : Terrain) (w : Trail) (start : ModuleId) (r : Except Value Unit) (w' : Trail)
    (new : List ModuleId) (k : Journal) : Prop where
  journal : w'.journal = w.journal ++ k
  seen : w'.seen = new ++ w.seen
  nodup : new.Nodup
  apart : ∀ x ∈ new, x ∉ w.seen
  fresh : ∀ x ∈ new, T.past x = none
  reached : ∀ x ∈ new, ReflTransGen (w'.journal.Links T.requested) start x
  started : k.started.Subperm new
  all : r = .ok () → k.started.Perm new
  closed : r = .ok () → ∀ x ∈ new, ∀ request ∈ T.requested x,
    ∃ n, Entry.resolved x request n ∈ w'.journal ∧ T.Settled w' n

def Proper (T : Terrain) : Errand → Prop
  | .module _ => True
  | .requests m todo => ∀ request ∈ todo, request ∈ T.requested m

def Done (T : Terrain) (w : Trail) : Errand → Prop
  | .module m => T.Settled w m
  | .requests m todo =>
    ∀ request ∈ todo, ∃ n, Entry.resolved m request n ∈ w.journal ∧ T.Settled w n

variable {w w' w'' : Trail} {m n : ModuleId} {errand : Errand} {r r' : Except Value Unit}
variable {new new' : List ModuleId} {k k' : Journal}

theorem Settled.mono (h : T.Settled w n) (hs : ∀ x ∈ w.seen, x ∈ w'.seen) : T.Settled w' n :=
  h.imp (hs n) id

theorem Gain.nothing (T : Terrain) (w : Trail) (m : ModuleId) (r : Except Value Unit) :
    T.Gain w m r w [] [] where
  journal := (List.append_nil _).symm
  seen := rfl
  nodup := List.nodup_nil
  apart _ hx := nomatch hx
  fresh _ hx := nomatch hx
  reached _ hx := nomatch hx
  started := .refl _
  all _ := .refl _
  closed _ _ hx := nomatch hx

theorem Gain.asked (h : T.Gain { w with journal := w.journal ++ k' } m r w' new k)
    (hk : k'.Answers) : T.Gain w m r w' new (k' ++ k) where
  journal := by rw [h.journal, List.append_assoc]
  seen := h.seen
  nodup := h.nodup
  apart := h.apart
  fresh := h.fresh
  reached := h.reached
  started := by
    rw [Journal.started_append, hk.started_eq]
    exact h.started
  all hr := by
    rw [Journal.started_append, hk.started_eq]
    exact h.all hr
  closed := h.closed

/-- The same gain, as one of the module that makes the request. -/
theorem Gain.of_request {request : String} (h : T.Gain w n r w' new k)
    (hr : request ∈ T.requested m) (hn : Entry.resolved m request n ∈ w'.journal) :
    T.Gain w m r w' new k :=
  { h with reached := fun x hx => .head ⟨request, hr, hn⟩ (h.reached x hx) }

theorem Gain.trans (h : T.Gain w m (.ok ()) w' new k) (h' : T.Gain w' m r w'' new' k') :
    T.Gain w m r w'' (new' ++ new) (k ++ k') where
  journal := by rw [h'.journal, h.journal, List.append_assoc]
  seen := by rw [h'.seen, h.seen, List.append_assoc]
  nodup := by
    refine List.nodup_append.2 ⟨h'.nodup, h.nodup, fun x hx y hy => ?_⟩
    rintro rfl
    exact h'.apart x hx (h.seen ▸ List.mem_append_left _ hy)
  apart x hx hw := by
    obtain hx | hx := List.mem_append.1 hx
    · exact h'.apart x hx (h.seen ▸ List.mem_append_right _ hw)
    · exact h.apart x hx hw
  fresh x hx := (List.mem_append.1 hx).elim (h'.fresh x) (h.fresh x)
  reached x hx := by
    obtain hx | hx := List.mem_append.1 hx
    · exact h'.reached x hx
    · refine ReflTransGen.mono (fun _ _ hl => ?_) _ _ (h.reached x hx)
      rw [h'.journal]
      exact hl.mono
  started := by
    rw [Journal.started_append]
    exact (h.started.append h'.started).trans List.perm_append_comm.subperm
  all hr := by
    rw [Journal.started_append]
    exact ((h.all rfl).append (h'.all hr)).trans List.perm_append_comm
  closed hr x hx request hreq := by
    obtain hx | hx := List.mem_append.1 hx
    · exact h'.closed hr x hx request hreq
    · obtain ⟨n, hn, hs⟩ := h.closed rfl x hx request hreq
      refine ⟨n, by rw [h'.journal]; exact List.mem_append_left _ hn, hs.mono fun y hy => ?_⟩
      rw [h'.seen]
      exact List.mem_append_right _ hy

/-- What the walk below a module has gained belongs to the walk of the module. The module itself was
seen first, and its body may have run at the end. -/
theorem Gain.enter {body : Journal} (hm : m ∉ w.seen) (hpast : T.past m = none)
    (h : T.Gain { w with seen := m :: w.seen } m r w' new k)
    (hbody : body.started.Subperm [m])
    (hok : r' = .ok () → r = .ok () ∧ body.started = [m] ∧
      T.Done w' (.requests m (T.requested m))) :
    T.Gain w m r' { w' with journal := w'.journal ++ body } (new ++ [m]) (k ++ body) where
  journal := by rw [h.journal, List.append_assoc]
  seen := by rw [h.seen, List.append_assoc, List.singleton_append]
  nodup := by
    refine List.nodup_append.2 ⟨h.nodup, List.pairwise_singleton .., fun x hx y hy => ?_⟩
    rintro rfl
    exact h.apart x hx (List.mem_singleton.1 hy ▸ List.mem_cons_self ..)
  apart x hx hw := by
    obtain hx | hx := List.mem_append.1 hx
    · exact h.apart x hx (List.mem_cons_of_mem _ hw)
    · exact hm (List.mem_singleton.1 hx ▸ hw)
  fresh x hx := by
    obtain hx | hx := List.mem_append.1 hx
    · exact h.fresh x hx
    · rwa [List.mem_singleton.1 hx]
  reached x hx := by
    obtain hx | hx := List.mem_append.1 hx
    · exact ReflTransGen.mono (fun _ _ hl => hl.mono) _ _ (h.reached x hx)
    · rw [List.mem_singleton.1 hx]
  started := by
    rw [Journal.started_append]
    exact h.started.append hbody
  all hr := by
    obtain ⟨hr, hb, -⟩ := hok hr
    rw [Journal.started_append, hb]
    exact (h.all hr).append_right _
  closed hr x hx request hreq := by
    obtain ⟨hr, -, hdone⟩ := hok hr
    obtain ⟨n, hn, hs⟩ : ∃ n, Entry.resolved x request n ∈ w'.journal ∧ T.Settled w' n := by
      obtain hx | hx := List.mem_append.1 hx
      · exact h.closed hr x hx request hreq
      · rw [List.mem_singleton.1 hx] at hreq ⊢
        exact hdone request hreq
    exact ⟨n, List.mem_append_left _ hn, hs⟩

theorem Walk.cons {request : String} {todo : List String}
    (h : T.Walk w (.requests m [request]) (.ok ()) w') (h' : T.Walk w' (.requests m todo) r w'') :
    T.Walk w (.requests m (request :: todo)) r w'' := by
  cases h with
  | next hk hn h hdone =>
    cases hdone
    exact .next hk hn h h'

/-- One request has thrown, and the others are not made. -/
theorem Walk.cut {request : String} {e : Value}
    (h : T.Walk w (.requests m [request]) (.error e) w') (todo : List String) :
    T.Walk w (.requests m (request :: todo)) (.error e) w' := by
  cases h with
  | refused hk he => exact .refused hk he
  | next _ _ _ hdone => cases hdone
  | stops hk hn h => exact .stops hk hn h

theorem Gain.seen_mono (h : T.Gain w m r w' new k) : ∀ x ∈ w.seen, x ∈ w'.seen := fun x hx => by
  rw [h.seen]
  exact List.mem_append_right _ hx

/-- Whatever a walk does, its trail grows by what it has seen and run. -/
theorem Walk.gain (h : T.Walk w errand r w') (hp : T.Proper errand) :
    ∃ new k, T.Gain w errand.subject r w' new k ∧ (r = .ok () → T.Done w' errand) := by
  induction h with
  | again hm => exact ⟨[], [], .nothing .., fun _ => .inl hm⟩
  | before hm hpast => exact ⟨[], [], .nothing .., fun hr => .inr (hr ▸ hpast)⟩
  | @body w w' m r k hm hpast _ hrun ih =>
    obtain ⟨new, k', h, hdone⟩ := ih fun _ hr => hr
    have hbody : k.started = [m] := hrun.started_eq
    refine ⟨_, _, h.enter hm hpast (hbody ▸ .refl _) fun _ => ⟨rfl, hbody, hdone rfl⟩, fun _ => ?_⟩
    refine .inl ?_
    rw [h.seen]
    exact List.mem_append_right _ (List.mem_cons_self ..)
  | @broken w w' m e hm hpast _ ih =>
    obtain ⟨new, k, h, -⟩ := ih fun _ hr => hr
    have h : T.Gain w m (.error e) { w' with journal := w'.journal ++ [] } _ _ :=
      h.enter hm hpast List.nil_subperm fun hr => nomatch hr
    rw [List.append_nil] at h
    exact ⟨_, _, h, fun hr => nomatch hr⟩
  | done => exact ⟨[], [], .nothing .., fun _ _ hr => nomatch hr⟩
  | refused hk _ =>
    exact ⟨[], _, (Gain.nothing ..).asked hk, fun hr => nomatch hr⟩
  | @next w w' w'' m n request todo k r hk hn _ _ ih ih' =>
    obtain ⟨new, k₁, h₁, hdone₁⟩ := ih trivial
    obtain ⟨new', k₂, h₂, hdone₂⟩ := ih' fun r hr => hp r (List.mem_cons_of_mem _ hr)
    have hn₁ : Entry.resolved m request n ∈ w'.journal := by
      rw [h₁.journal]
      exact List.mem_append_left _ hn
    have h := ((h₁.of_request (hp _ (List.mem_cons_self ..)) hn₁).asked hk).trans h₂
    refine ⟨_, _, h, fun hr request' hreq => ?_⟩
    obtain rfl | hreq := List.mem_cons.1 hreq
    · refine ⟨n, ?_, (hdone₁ rfl).mono fun x hx => ?_⟩
      · rw [h₂.journal]
        exact List.mem_append_left _ hn₁
      · rw [h₂.seen]
        exact List.mem_append_right _ hx
    · exact hdone₂ hr request' hreq
  | @stops w w' m n request todo k e hk hn _ ih =>
    obtain ⟨new, k₁, h₁, -⟩ := ih trivial
    have hn₁ : Entry.resolved m request n ∈ w'.journal := by
      rw [h₁.journal]
      exact List.mem_append_left _ hn
    exact ⟨_, _, (h₁.of_request (hp _ (List.mem_cons_self ..)) hn₁).asked hk, fun hr => nomatch hr⟩

/-- A whole walk from `m` has run what can be reached from `m` and was not evaluated before: each
body at most once, and all of them if nothing has thrown. -/
theorem Walk.started_exactly {j j' : Journal} {seen : List ModuleId}
    (h : T.Walk ⟨j, []⟩ (.module m) r ⟨j', seen⟩) (hstable : j'.Stable)
    (hpast : ∀ x y, ReflTransGen (j'.Links T.requested) m x → T.past x = some (.ok ()) →
      j'.Links T.requested x y → T.past y = some (.ok ())) :
    ∃ k, j' = j ++ k ∧ k.started.Nodup ∧
      (∀ x ∈ k.started, T.past x = none ∧ ReflTransGen (j'.Links T.requested) m x) ∧
      (r = .ok () → ∀ x, ReflTransGen (j'.Links T.requested) m x → T.past x = none →
        x ∈ k.started) := by
  obtain ⟨new, k, hg, hdone⟩ := h.gain trivial
  have hseen : seen = new := by
    have := hg.seen
    rwa [List.append_nil] at this
  have hsub : ∀ x ∈ k.started, x ∈ new := fun x hx => hg.started.subset hx
  obtain ⟨l, hperm, hl⟩ := hg.started
  refine ⟨k, hg.journal, hperm.nodup_iff.1 (hg.nodup.sublist hl), fun x hx =>
    ⟨hg.fresh x (hsub x hx), hg.reached x (hsub x hx)⟩, fun hr x hx hfresh => ?_⟩
  have hsettled : T.Settled ⟨j', seen⟩ x := by
    clear hfresh
    induction hx with
    | refl => exact hdone hr
    | @tail x y hreach hl ih =>
      obtain hx | hx := ih
      · obtain ⟨request, hreq, hy⟩ := hl
        obtain ⟨n, hn, hs⟩ := hg.closed hr x (hseen ▸ hx) request hreq
        rwa [hstable x request y n hy hn]
      · exact .inr (hpast x y hreach hx hl)
  obtain hx | hx := hsettled
  · exact (hg.all hr).symm.subset (hseen ▸ hx)
  · rw [hfresh] at hx
    cases hx

end Terrain

end ModuleGraph
