import ModuleGraph.Proofs.Evaluation.Changes

/-! # Failing

A module that waits fails together with its parents, and one that has failed is not run any more. -/

namespace ModuleGraph.Graph

open Relation

variable {g g' : Graph} {m x d q : ModuleId}

/-! ## Failing -/

def fail (g : Graph) (m : ModuleId) (e : Value) (released : List ModuleId) : Graph :=
  { g.set m { (g.fields m).fail e with order := .done } with
    doom := (g.fields m).parents ++ g.doom, released }

theorem sets_fail (g : Graph) (m : ModuleId) (e : Value) (released : List ModuleId) :
    g.Sets (g.fail m e released) m { (g.fields m).fail e with order := .done } := sets_set g m _

theorem grows_fail (h : g.Sound) (hm : (g.fields m).status = .evaluatingAsync) (e : Value)
    (released : List ModuleId) : g.Grows (g.fail m e released) := by
  refine (sets_fail g m e released).grows (fun _ he => he) (fun _ hl => hl)
    (fun _ _ ht => ht) rfl rfl
    (fun _ => ⟨rfl, fun ho => ?_, .inr rfl⟩) (fun _ hx => hx) fun hc => ?_
  · have := ((h.shaped m).waiting hm).2.2
    rw [ho] at this
    cases this
  · rw [hc.1] at hm
    cases hm

theorem Failed.fail (h : g.Failed x) (m : ModuleId) (e : Value) (released : List ModuleId) :
    (g.fail m e released).Failed x := by
  by_cases ex : x = m
  · rw [ex, Failed, (sets_fail g m e released).1]
    rintro ⟨⟩
  · rwa [Failed, (sets_fail g m e released).2 x ex]

theorem waits_fail {released : List ModuleId} (e : Value)
    (hreleased : ∀ x, x ≠ m → (x ∈ released ↔ x ∈ g.released)) (hx : x ∉ (g.fields m).parents) :
    (g.fail m e released).waits x = g.waits x := by
  have hset := sets_fail g m e released
  refine waits_of_weight rfl fun d => ?_
  by_cases ed : d = m
  · rw [ed, weight, weight, hset.field (·.parents) rfl, List.count_eq_zero.2 hx, ite_self, ite_self]
  · exact weight_congr (owes_congr (by rw [hset.2 d ed]) (by rw [hset.2 d ed]) (hreleased d ed))
      (by rw [hset.2 d ed])

theorem shaped_fail (h : g.Shaped m) (hm : (g.fields m).status = .evaluatingAsync) {e : Value}
    {released : List ModuleId} (hgrows : g.Grows (g.fail m e released)) (hblame : g.Blames m e) :
    (g.fail m e released).Shaped m := by
  have hi : ¬(g.fields m).status.IsIdle := Status.awake_of_evaluatingAsync hm
  obtain ⟨-, hroot, -⟩ := h.waiting hm
  constructor <;> rw [(sets_fail g m e released).1]
  case idle => exact fun hi => hi.elim
  case opened => exact fun hs => nomatch hs
  case waiting => exact fun hs => nomatch hs
  case complete => exact fun _ he => nomatch he
  case unset => exact fun hu => nomatch hu
  case turn => exact fun k hk => nomatch hk
  case unstarted => exact fun ho => nomatch ho
  case failed => exact fun _ _ => rfl
  case done => exact fun _ => hroot
  case sized => exact fun _ => h.sized hi
  case once => exact fun _ => h.once hi
  case blamed => exact fun v hv => Option.some.inj hv ▸ hblame.grows hgrows

theorem awaits_fail {e : Value} {released : List ModuleId}
    (hgrows : g.Grows (g.fail m e released)) (ha : g.Awaits x d)
    (hx : x ∈ (g.fields d).parents) (hor : x = m ∨ d = m) :
    (g.fail m e released).Awaits x d := by
  have hset := sets_fail g m e released
  constructor
  case awake =>
    by_cases ex : x = m
    · rw [ex, hset.1]
      exact id
    · rw [hset.2 x ex]
      exact ha.awake
  case turn =>
    intro k k' hk hk'
    rcases hor with rfl | rfl
    · rw [hset.1] at hk'
      cases hk'
    · rw [hset.1] at hk
      cases hk
  case failed =>
    intro hf
    by_cases ed : d = m
    · exact .inr (List.mem_append_left _ (ed ▸ hx))
    · rw [Failed, hset.2 d ed] at hf
      exact (ha.failed hf).imp (·.fail m e released) fun hx => List.mem_append_right _ hx
  case started => exact fun hs => hgrows.complete d (ha.started hs)
  case opened => exact ha.opened
  case root =>
    rw [hset.field (·.root) rfl, hset.field (·.root) rfl]
    exact ha.root
  case reach => exact ReflTransGen.mono hgrows.requests _ _ ha.reach

theorem Sound.fail (h : g.Sound) {released : List ModuleId} (e : Value)
    (hm : (g.fields m).status = .evaluatingAsync)
    (hblame : g.Blames m e) (hreleased : ∀ x, x ≠ m → (x ∈ released ↔ x ∈ g.released)) :
    (g.fail m e released).Sound := by
  have hset := sets_fail g m e released
  have hgrows := grows_fail h hm e released
  refine h.change hset hgrows rfl rfl rfl le_rfl (fun _ hx => List.mem_append_right _ hx)
    (fun _ _ => rfl) rfl ?hopen (shaped_fail (h.shaped m) hm hgrows hblame)
    (fun x k hx hk => nomatch hk) ?hawaits ?hbalanced ?hready ?hrunning
  case hopen =>
    rw [hm]
    exact ⟨fun e => (nomatch e), fun e => (nomatch e)⟩
  case hawaits =>
    intro d x hx hor
    rw [hset.field (·.parents) rfl] at hx
    exact awaits_fail hgrows (h.awaits d x hx) hx hor
  case hbalanced =>
    intro x hx hdoom
    have hxm : x ≠ m := by
      rintro rfl
      rw [hset.1] at hx
      rcases hx with hx | hx <;> cases hx
    rw [hset.2 x hxm] at hx
    have hd : x ∉ (g.fields m).parents ∧ x ∉ g.doom :=
      not_or.1 fun e => hdoom (List.mem_append.2 e)
    refine (h.balanced x hx hd.2).congr (by rw [hset.2 x hxm])
      (congrArg (· + g.debt.count x) (waits_fail e hreleased hd.1)) fun hf => ?_
    rw [RootFailed, hset.field (·.root) rfl]
    exact Failed.fail hf m e released
  case hready =>
    intro x hx hxe
    have hxm : x ≠ m := by
      rintro rfl
      rw [hset.1] at hxe
      cases hxe
    rw [hset.2 x hxm] at hxe ⊢
    exact h.ready x hx hxe
  case hrunning =>
    intro x hxo hxe hxp hxr hxl
    have hxm : x ≠ m := by
      rintro rfl
      rw [hset.1] at hxo
      cases hxo
    rw [hset.2 x hxm] at hxo hxe hxp ⊢
    exact h.running x hxo hxe hxp hxr fun hx => hxl ((hreleased x hxm).2 hx)

theorem Sound.spare (h : g.Sound) {doom : List ModuleId}
    (hdoom : ∀ x ∈ g.doom, g.Failed x ∨ x ∈ doom) : ({ g with doom } : Graph).Sound := by
  refine h.beside (fun _ x _ _ hx => hdoom x hx) (fun x hx hd => ?_) (fun _ hx _ => hx) h.running
  refine h.balanced x hx fun hx' => ?_
  have hev := (h.shaped x).evaluated_of_failed ((hdoom x hx').resolve_right hd)
  rw [hev] at hx
  rcases hx with hx | hx <;> cases hx

theorem Sound.skip (h : g.Sound) {ready released : List ModuleId} (hm : g.Failed m)
    (hready : ∀ x, x ∈ ready ↔ x ∈ g.ready ∧ x ≠ m)
    (hreleased : ∀ x, x ∈ released ↔ x ∈ g.released ∧ x ≠ m) :
    ({ g with ready, released } : Graph).Sound := by
  have hweight : ∀ x d, ({ g with ready, released } : Graph).weight x d = g.weight x d := by
    refine fun x d => weight_congr ?_ rfl
    by_cases ed : d = m
    · have hf : (g.fields d).error.isNone = false := by
        rw [ed, Option.isNone_eq_false_iff, Option.isSome_iff_ne_none]
        exact hm
      simp [owes, hf]
    · exact owes_congr rfl rfl ((hreleased d).trans (and_iff_left ed))
  refine h.beside (fun _ _ _ _ hx => .inr hx) (fun x hx hd => ?_)
    (fun x hx _ => ((hready x).1 hx).1) fun x ho he hp hr hl => ?_
  · exact (h.balanced x hx hd).congr rfl
      (congrArg (· + g.debt.count x) (waits_of_weight rfl (hweight x))) id
  · have hxm : x ≠ m := fun e => hm (e ▸ he)
    exact h.running x ho he hp (fun hx => hr ((hready x).2 ⟨hx, hxm⟩))
      fun hx => hl ((hreleased x).2 ⟨hx, hxm⟩)

end ModuleGraph.Graph
