import ModuleGraph.Proofs.Exports.Names
import ModuleGraph.Proofs.Exports.Sound
import ModuleGraph.Proofs.UnitOrder

/-! # The keys of namespaces

The keys of a namespace are the names of its module that resolve. Collecting the exported names and
resolving one of them are different walks over the graph; what the second one finds is always among
what the first one collected. -/

namespace ModuleGraph

open Relation

variable {σ κ : Type}

namespace ExportGraph

variable {G : ExportGraph} {world : Machine σ κ → Prop} {host : Host σ κ} {s s' : Machine σ κ}
variable {p : ModuleId × String} {m : ModuleId} {keys keys' : List String}

/-- A resolution that does not throw finds a binding just if there is one and no other. -/
theorem Tells.found_iff {resolution : Option Resolution} (h : G.Tells s' p (.ok resolution)) :
    (∃ n b, resolution = some (.found n b)) ↔ ∃ b, G.Binds p b := by
  constructor
  · rintro ⟨n, b, rfl⟩
    exact ⟨(n, b), (Tells.binds (b := (n, b)) h).1⟩
  · rintro ⟨b, hb⟩
    generalize hr : (Except.ok resolution : Except Value (Option Resolution)) = r at h
    cases h with
    | threw => cases hr
    | ambiguous hc hd hne => exact absurd (((hb _).1 hc).trans ((hb _).1 hd).symm) hne
    | settled hfound =>
      rw [(hfound b).2 hb.provides] at hr
      exact ⟨b.1, b.2, Except.ok.inj hr⟩

def Obscured (G : ExportGraph) (m : ModuleId) : Prop :=
  G.StarRefused m ∨ ∃ name q, ReflTransGen G.Leads (m, name) q ∧ G.Blocked q

theorem mem_of_stars {x : ModuleId} (hx : ReflTransGen G.Stars m x) (hm : m ∈ G.modules) :
    x ∈ G.modules := by
  induction hx with
  | refl => exact hm
  | tail _ hs ih =>
    obtain ⟨_, _, _, _, ht⟩ := hs
    exact G.closed ih ht

theorem not_obscured (ht : ∀ m ∈ G.modules, ∀ request, ∃ n, G.target m request = some n)
    (hm : m ∈ G.modules) : ¬G.Obscured m := by
  rintro (⟨x, hx, record, -, request, -, hn⟩ | ⟨name, q, hq, hb⟩)
  · obtain ⟨n, hn'⟩ := ht x (mem_of_stars hx hm) request
    rw [hn] at hn'
    cases hn'
  · exact not_blocked ht (mem_of_leads hq hm) hb

theorem Clear.not_obscured (hlist : G.Listed) (h : G.Clear m) : ¬G.Obscured m := by
  rintro (⟨x, hx, record, hs, request, hr, hn⟩ | ⟨name, q, hq, hb⟩)
  · have hmx : ReflTransGen G.Requests m x := ReflTransGen.mono
      (fun _ _ ⟨record, hs, request, hr, ht⟩ =>
        ⟨record, hs, request, (hlist _ _ hs).stars _ hr, ht⟩) _ _ hx
    exact h x hmx ⟨record, hs, request, (hlist x record hs).stars request hr, hn⟩
  · exact h.not_blocked hlist hq hb

/-- The names of a module that stand for one binding, in the order of their units. -/
structure IsKeys (G : ExportGraph) (m : ModuleId) (keys : List String) : Prop where
  increasing : keys.Pairwise Text.Precedes
  mem_iff : ∀ n, n ∈ keys ↔ ∃ b, G.Binds (m, n) b

theorem IsKeys.unique (h : G.IsKeys m keys) (h' : G.IsKeys m keys') : keys' = keys :=
  h'.increasing.eq_of_mem_iff h.increasing fun n => (h'.mem_iff n).trans (h.mem_iff n).symm

/-- How a call for the keys of a namespace ends: with the keys that are kept from an earlier call,
or with those that the graph says. They are kept afterwards. -/
def KeysEnd (G : ExportGraph) (m : ModuleId) (s : Machine σ κ) :
    Except Value (List String) → Machine σ κ → Prop
  | .ok keys, s' => (s'.module m).exports = some keys ∧
      ((s.module m).exports = some keys ∨ G.IsKeys m keys)
  | .error _, _ => G.Obscured m

section Namespaces

variable (h : G.Serves world host) (hdepth : G.bound < host.depth)
include h hdepth

theorem resolution_returns (hw : world s) (hm : m ∈ G.modules) (hh : s.Has m) (name : String) :
    Returns world (host.resolution m name) s fun r s' => G.Tells s' (m, name) r :=
  .of_within (h.resolution m name) hw (resolution_tells h hdepth hw hm hh name)

theorem boundTo_returns (hw : world s) (hm : m ∈ G.modules) (hh : s.Has m) (name : String) :
    Returns world (host.boundTo m name) s fun r _ =>
      match r with
      | .ok found => found.isSome ↔ ∃ b, G.Binds (m, name) b
      | .error _ => G.Obscured m := by
  refine .bind (resolution_returns h hdepth hw hm hh name) (fun found s₁ hw₁ _ hf => ?_)
    fun e s₁ he => ?_
  · have hiff := hf.found_iff
    split
    · exact .pure hw₁ (by simpa using hiff)
    · exact .pure hw₁ (by simpa using hiff)
    · exact .pure hw₁ (by simpa using hiff)
  · cases he with
    | threw hq hb => exact .inr ⟨name, _, hq, hb⟩

/-- Of a list of names, those that stand for one binding are kept. -/
theorem keepResolvable_returns (hm : m ∈ G.modules) (names : List String) :
    ∀ s, world s → s.Has m → Returns world (keepResolvable host m names) s fun r _ =>
      match r with
      | .ok kept => ∀ n, n ∈ kept ↔ n ∈ names ∧ ∃ b, G.Binds (m, n) b
      | .error _ => G.Obscured m := by
  induction names with
  | nil => exact fun s hw _ => .pure hw fun n => by simp
  | cons name rest ih =>
    intro s hw hh
    refine .bind (boundTo_returns h hdepth hw hm hh name) (fun found s₁ hw₁ hgrow hfound => ?_)
      fun e s₁ he => he
    refine .bind (ih s₁ hw₁ (hgrow m hh)) (fun kept s₂ hw₂ _ hkept => .pure hw₂ fun n => ?_)
      fun e s₂ he => he
    dsimp only at hfound hkept
    split
    · rename_i hsome
      rw [List.mem_cons, List.mem_cons, hkept]
      constructor
      · rintro (rfl | ⟨hn, hb⟩)
        · exact ⟨.inl rfl, hfound.1 hsome⟩
        · exact ⟨.inr hn, hb⟩
      · exact fun ⟨hn, hb⟩ => hn.imp id fun hn => ⟨hn, hb⟩
    · rename_i hnone
      rw [List.mem_cons, hkept]
      refine and_congr_left fun hb => ⟨.inr, fun hn => hn.resolve_left ?_⟩
      rintro rfl
      exact hnone (hfound.2 hb)

/-- The keys of a namespace are the names that stand for one binding, unless other ones are kept. -/
theorem namespaceKeys_returns (hw : world s) (hm : m ∈ G.modules) (hh : s.Has m) :
    Returns world (host.namespaceKeys m) s (G.KeysEnd m s) := by
  refine .step rfl (h.refl s) hw fun _ _ => ?_
  split
  · exact .pure hw ⟨‹_›, .inl ‹_›⟩
  · have hcard : (unasked G.modules []).card < host.depth :=
      ((Finset.card_filter_le _ _).trans G.card_modules_le).trans_lt hdepth
    refine .bind (exportedNames_returns h host.depth m [] s hw hm hh hcard)
      (fun found s₁ hw₁ hgrow₁ hnames => ?_) fun e s₁ he => .inl he
    refine .bind (keepResolvable_returns h hdepth hm _ s₁ hw₁ (hgrow₁ m hh))
      (fun kept s₂ hw₂ hgrow₂ hkept => ?_) fun e s₂ he => he
    refine .step rfl (h.keep s₂ m _) hw₂ fun hw₃ _ => .pure hw₃ ⟨?_, .inr ⟨?_, fun n => ?_⟩⟩
    · rw [Machine.module_updateModule_self _ _ (hgrow₂ m (hgrow₁ m hh))]
    · exact Text.pairwise_sortDistinct kept
    · rw [Text.mem_sortDistinct, hkept]
      refine ⟨And.right, fun hb => ⟨?_, hb⟩⟩
      obtain ⟨b, hb⟩ := hb
      exact Lists.complete hnames hb.provides

end Namespaces

end ExportGraph

end ModuleGraph
