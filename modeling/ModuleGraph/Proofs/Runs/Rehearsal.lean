import ModuleGraph.Proofs.Planned
import ModuleGraph.Proofs.Runs.Jobs

/-! # A host that can be run

The host that follows a plan conducts itself as runs ask of it, apart from bodies that wait for
promises nobody has made. Here such a body completes instead. -/

namespace ModuleGraph

open Relation

namespace Plan

/-- Runs the body of a module as planned, but does not wait for a promise that was never made. -/
def perform (plan : Plan) (m : ModuleId) : Act Journal ModuleId (Execution ModuleId) := do
  let body ← Act.view fun s =>
    match plan.body m with
    | .waits p => if p.index < s.promises.size then .waits p else .completes
    | body => body
  start { plan with body := fun _ => body } m

def rehearsal (plan : Plan) (depth : Nat) : Host Journal ModuleId :=
  { plan.host depth with
    execute := plan.perform
    executeForeign := plan.perform }

variable {plan : Plan} {reserved : Set PromiseId} {hosts : Set (Host Journal ModuleId)}
variable {s s' : Machine Journal ModuleId} {m n : ModuleId} {request : String}

theorem call_note {e : Entry} (he : e.isAnswer) :
    Machine.Call id reserved hosts s (s.setHost (s.host ++ [e])) := by
  refine .elsewhere ⟨fun _ => id, fun _ _ => rfl, fun _ _ => rfl, fun _ _ => id,
    fun _ => Machine.isNew_of_not_has, .refl s, ⟨[e], ?_, rfl⟩, rfl, fun _ => rfl,
      fun _ => rfl, rfl,
    ⟨rfl, fun _ => rfl⟩, fun _ _ => id, rfl, rfl⟩
  intro e' he'
  rwa [List.mem_singleton.1 he']

theorem calls_answer (plan : Plan) (m : ModuleId) (request : String) :
    Within (Machine.Calls id reserved hosts) (plan.answer m request) := by
  intro s r s' h
  rw [answer, Act.view_bind] at h
  cases hmade : (plan.target m request).filter (·.index < s.modules.size) with
  | some n =>
    simp only [hmade] at h
    cases h
    exact .single (call_note rfl)
  | none =>
    simp only [hmade] at h
    cases h
    exact (ReflTransGen.single (.elsewhere (.newError s .typeError "Cannot find module"))).tail
      (call_note rfl)

theorem proceeds_note {r : Except Value (Execution ModuleId)}
    (hj : s'.host = s.host ++ Journal.closing m s.nextError r) (hs : s' = s.setHost s'.host)
    (hw : ∀ p code, r = .ok (.waiting p code) → code = m ∧ s.Made p) :
    s.Proceeds id id reserved hosts m r s' :=
  ⟨⟨s, s'.host, .refl, hs, hj⟩, fun p code hr => by rw [hs]; exact hw p code hr⟩

theorem executes_start {body : BodyPlan} (hbody : ∀ p, body = .waits p → s.Made p)
    {r : Except Value (Execution ModuleId)}
    (h : start { plan with body := fun _ => body } m s = some (r, s')) :
    s.Executes id id reserved hosts m r s' := by
  refine ⟨s.host ++ [.started m s.outline], rfl, ?_⟩
  cases body with
  | completes =>
    cases h
    exact proceeds_note rfl rfl fun _ _ e => nomatch e
  | throws reason =>
    cases h
    exact proceeds_note rfl rfl fun _ _ e => nomatch e
  | waits p =>
    cases h
    refine proceeds_note rfl rfl fun q code e => ?_
    cases e
    exact ⟨rfl, hbody p rfl⟩

theorem executes_perform {r : Except Value (Execution ModuleId)}
    (h : plan.perform m s = some (r, s')) : s.Executes id id reserved hosts m r s' := by
  rw [perform, Act.view_bind] at h
  refine executes_start (fun p hp => ?_) h
  split at hp
  · split at hp
    · cases hp
      assumption
    · cases hp
  · rename_i hne
    exact (hne p hp).elim

theorem conduct (plan : Plan) (depth : Nat) (reserved : Set PromiseId) :
    Conduct id id reserved {plan.rehearsal depth} where
  track host hh p e h := by rw [hh]; rfl
  resolve host hh referrer request := by
    rw [hh]
    cases referrer with
    | module m => exact calls_answer plan m request
    | script i =>
      intro s r s' h
      cases h
      exact .single (.elsewhere (.newError s .typeError "Cannot find module"))
  found host hh {referrer request s n s'} h := by
    rw [hh] at h
    cases referrer with
    | module m =>
      obtain ⟨hn, hhas⟩ := answer_noted h
      refine ⟨hhas, fun m' hm' => ?_⟩
      cases hm'
      exact hn
    | script i => cases h
  refused host hh {m request s e s'} h := by
    rw [hh] at h
    change plan.answer m request s = some (.error e, s') at h
    rw [answer, Act.view_bind] at h
    cases hmade : (plan.target m request).filter (·.index < s.modules.size) with
    | some n =>
      simp only [hmade] at h
      cases h
    | none =>
      simp only [hmade] at h
      cases h
      exact List.mem_append_right _ (List.mem_singleton_self _)
  exportedNames host hh m := by
    rw [hh]
    exact Within.pure (.reflTransGen _) _
  resolveExport host hh m name visited := by
    rw [hh]
    exact Within.pure (.reflTransGen _) _
  linkLeaf host hh m := by
    rw [hh]
    exact Within.pure (.reflTransGen _) _
  initializeForeign host hh m := by
    rw [hh]
    exact Within.pure (.reflTransGen _) _
  instantiateForeign host hh m := by
    rw [hh]
    exact Within.pure (.reflTransGen _) _
  prepare host hh m := by
    rw [hh]
    exact Within.pure (.reflTransGen _) _
  execute host hh {m s r s'} h := by
    rw [hh] at h
    exact executes_perform h
  executeForeign host hh {m s r s'} h := by
    rw [hh] at h
    exact executes_perform h
  evaluateLeaf host hh {m s r s'} h := by
    rw [hh] at h
    cases h
    exact ⟨s.host ++ [.started m s.outline], rfl, proceeds_note rfl rfl fun _ _ e => by cases e⟩
  resume host hh {code x s r s'} h := by
    rw [hh] at h
    cases x <;> cases h <;> exact proceeds_note rfl rfl fun _ _ e => by cases e
  call host hh {code x s r s'} h := by
    rw [hh] at h
    cases x <;> cases h <;> exact .refl

theorem reachable_modules (plan : Plan) (depth : Nat) (reserved : Set PromiseId)
    {modules : Array Module} (h : ∀ x ∈ modules, x.kind.IsNew) :
    Machine.Reachable id reserved {plan.rehearsal depth}
      { Machine.initial [] with modules } := by
  refine ⟨[], rfl, .single (.move (.call (.elsewhere ⟨fun m hm => absurd hm (Nat.not_lt_zero _),
    fun m hm => absurd hm (Nat.not_lt_zero _), fun m hm => absurd hm (Nat.not_lt_zero _),
    fun m hm => absurd hm (Nat.not_lt_zero _), fun m _ => ?_, .refl _,
    ⟨[], Journal.answers_nil, rfl⟩, rfl, fun _ => rfl, fun _ => rfl, rfl, ⟨rfl, fun _ => rfl⟩,
    fun _ _ => id, rfl, rfl⟩)))⟩
  by_cases hm : m.index < modules.size
  · refine h _ ?_
    rw [Machine.module, Array.getD_eq_getD_getElem?, Array.getElem?_eq_getElem hm]
    exact Array.getElem_mem hm
  · exact Machine.isNew_of_not_has hm

end Plan

/-! ## A short run -/

/-- Module `0` requests module `1` and the leaf `2`. -/
def sample (body : BodyPlan) : Plan where
  target _ request := if request = "b" then some ⟨1⟩ else if request = "c" then some ⟨2⟩ else none
  body m := if m = ⟨1⟩ then body else .completes

namespace Sample

def made : Machine Journal ModuleId :=
  { Machine.initial [] with
    modules := #[.new (.foreign false (.new ["b", "c"] false)) none,
      .new (.foreign false (.new [] false)) none, .new (.leaf .unlinked) none] }

variable (body : BodyPlan)

def host : Host Journal ModuleId := (sample body).rehearsal 4

def linked : Machine Journal ModuleId := ((host body).link ⟨0⟩ made).elim made (·.2)

def evaluated : Machine Journal ModuleId :=
  ((host body).evaluate ⟨0⟩ (linked body)).elim made (·.2)

variable {body}

theorem reachable_made (body : BodyPlan) (reserved : Set PromiseId) :
    Machine.Reachable id reserved {host body} made := by
  refine (sample body).reachable_modules 4 reserved fun x hx => ?_
  simp only [List.mem_toArray, List.mem_cons, List.not_mem_nil, or_false] at hx
  obtain rfl | rfl | rfl := hx
  · exact ⟨rfl, rfl⟩
  · exact ⟨rfl, rfl⟩
  · rfl

theorem reachable_linked (reserved : Set PromiseId) {r : Except LinkError Unit}
    (hr : (host body).link ⟨0⟩ made = some (r, linked body)) :
    Machine.Reachable id reserved {host body} (linked body) :=
  (reachable_made body reserved).move (.link rfl (show 0 < 3 by decide) hr)

/-- A journal whose answers all follow a plan is stable. -/
theorem stable_of_all (body : BodyPlan) {j : Journal} (h : j.all fun
    | .resolved m r n => (sample body).target m r = some n
    | _ => true) : j.Stable := by
  have hmem : ∀ {m r n}, Entry.resolved m r n ∈ j → (sample body).target m r = some n :=
    fun hn => of_decide_eq_true (List.all_eq_true.1 h _ hn)
  intro m r n n' hn hn'
  exact Option.some.inj ((hmem hn).symm.trans (hmem hn'))

theorem has_linked {r : Except LinkError Unit}
    (hr : (host body).link ⟨0⟩ made = some (r, linked body)) : (linked body).Has ⟨0⟩ :=
  have hc := (sample body).conduct 4 Set.univ
  have hm : made.Has ⟨0⟩ := show 0 < 3 by decide
  (Machine.link_steps hc rfl hm hr).1.has hc hm

theorem reachable_evaluated (reserved : Set PromiseId) {r : Except LinkError Unit} {p : PromiseId}
    (hr : (host body).link ⟨0⟩ made = some (r, linked body))
    (hp : (host body).evaluate ⟨0⟩ (linked body) = some (p, evaluated body)) :
    Machine.Reachable id reserved {host body} (evaluated body) :=
  (reachable_linked reserved hr).move (.evaluate rfl (has_linked hr) hp)

def beforeRoot : Machine Unit Unit :=
  match List.drop 8 (evaluated .completes).host with
  | .started _ before :: _ => before
  | _ => .initial ()

end Sample

/-! ## A run that waits -/

/-- Module `0` requests the modules `1` and `2`, and both request module `3`, the first one under
two specifiers. -/
def diamond : Plan where
  target _ request := some (if request = "1" then ⟨1⟩ else if request = "2" then ⟨2⟩ else ⟨3⟩)
  body _ := .completes

namespace Diamond

/-- The modules were made. Only module `3` has top-level await. -/
def made : Machine Journal ModuleId :=
  { Machine.initial [] with
    modules := #[ofText ["1", "2"] false, ofText ["3", "again"] false, ofText ["3"] false,
      ofText [] true] }
where
  ofText (requested : List String) (hasAwait : Bool) : Module :=
    .new (.source { (default : SourceRecord) with requested, hasAwait } none
      (.new requested hasAwait)) none

def host : Host Journal ModuleId := diamond.rehearsal 9

def linked : Machine Journal ModuleId := (host.link ⟨0⟩ made).elim made (·.2)

def waiting : Machine Journal ModuleId := (host.evaluate ⟨0⟩ linked).elim made (·.2)

theorem reachable_waiting (reserved : Set PromiseId) :
    Machine.Reachable id reserved {host} waiting := by
  have hmade : Machine.Reachable id reserved {host} made := by
    refine diamond.reachable_modules 9 reserved fun x hx => ?_
    simp only [List.mem_toArray, List.mem_cons, List.not_mem_nil, or_false] at hx
    obtain rfl | rfl | rfl | rfl := hx <;> exact ⟨rfl, rfl⟩
  have hlinked : host.link ⟨0⟩ made = some (.ok (), linked) := by rfl
  have hm : made.Has ⟨0⟩ := show 0 < 4 by decide
  have hc := diamond.conduct 9 reserved
  have hwaiting : host.evaluate ⟨0⟩ linked = some (⟨0⟩, waiting) := by rfl
  exact (hmade.move (.link rfl hm hlinked)).move
    (.evaluate rfl ((Machine.link_steps hc rfl hm hlinked).1.has hc hm) hwaiting)

end Diamond

/-! ## A module that waits alone -/

/-- The body of module `0` throws. -/
def lone : Plan where
  target _ _ := none
  body _ := .throws (.boolean true)

namespace Lone

def made : Machine Journal ModuleId :=
  { Machine.initial [] with modules := #[Diamond.made.ofText [] true] }

def host : Host Journal ModuleId := lone.rehearsal 2

def linked : Machine Journal ModuleId := (host.link ⟨0⟩ made).elim made (·.2)

def waiting : Machine Journal ModuleId := (host.evaluate ⟨0⟩ linked).elim made (·.2)

theorem reachable_linked (reserved : Set PromiseId) :
    Machine.Reachable id reserved {host} linked := by
  have hmade : Machine.Reachable id reserved {host} made := by
    refine lone.reachable_modules 2 reserved fun x hx => ?_
    obtain rfl := List.mem_singleton.1 (List.mem_toArray.1 hx)
    exact ⟨rfl, rfl⟩
  have hlinked : host.link ⟨0⟩ made = some (.ok (), linked) := by rfl
  exact hmade.move (.link rfl (show 0 < 1 by decide) hlinked)

theorem has_linked : linked.Has ⟨0⟩ := show 0 < linked.modules.size by decide

theorem evaluate_linked : host.evaluate ⟨0⟩ linked = some (⟨0⟩, waiting) := rfl

theorem stable_of_all {j : Journal} (h : j.all fun
    | .resolved .. => false
    | _ => true) : j.Stable := fun _ _ _ _ hn =>
  absurd (List.all_eq_true.1 h _ hn) Bool.false_ne_true

end Lone

end ModuleGraph
