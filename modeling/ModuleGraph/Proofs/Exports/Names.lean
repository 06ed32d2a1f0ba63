import ModuleGraph.Export.Names
import ModuleGraph.Proofs.Exports.Returns
import ModuleGraph.Proofs.Exports.Search

/-! # Collecting exported names

A walk collects the names of each module when it sees it for the first time. A module that was seen
before gives nothing, so a name can be missing from what one `export *` gives. It is not missing
from the names of the module that the walk started with. -/

namespace ModuleGraph

open Relation

variable {σ κ : Type}

theorem mem_addStarNames {n : String} {names found : List String} :
    n ∈ addStarNames names found ↔ n ∈ names ∨ n ∈ found ∧ n ≠ "default" := by
  fun_induction addStarNames names found with
  | case1 => simp
  | case2 names x rest hx ih =>
    simp only [Bool.or_eq_true, decide_eq_true_eq, List.contains_iff_mem] at hx
    rw [ih, List.mem_cons]
    constructor
    · exact fun hn => hn.imp id fun hn => ⟨.inr hn.1, hn.2⟩
    · rintro (hn | ⟨rfl | hn, hd⟩)
      · exact .inl hn
      · exact .inl (hx.resolve_left hd)
      · exact .inr ⟨hn, hd⟩
  | case3 names x rest hx ih =>
    simp only [Bool.or_eq_true, decide_eq_true_eq] at hx
    rw [ih, List.mem_append, List.mem_singleton, List.mem_cons]
    constructor
    · rintro ((hn | rfl) | ⟨hn, hd⟩)
      · exact .inl hn
      · exact .inr ⟨.inl rfl, fun hd => hx (.inl hd)⟩
      · exact .inr ⟨.inr hn, hd⟩
    · rintro (hn | ⟨rfl | hn, hd⟩)
      · exact .inl (.inl hn)
      · exact .inl (.inr rfl)
      · exact .inr ⟨hn, hd⟩

namespace ExportGraph

variable {G : ExportGraph} {world : Machine σ κ → Prop} {host : Host σ κ} {s : Machine σ κ}
variable {m : ModuleId} {n : String} {b : ModuleId × BindingName} {record : SourceRecord}
variable {seen seen₁ seen₂ : List ModuleId} {names names₁ names₂ : List String}

def ownNames (G : ExportGraph) (m : ModuleId) : List String :=
  match G.source m with
  | some record => record.ownNames
  | none => G.names m

theorem ownNames_of_source (hs : G.source m = some record) : G.ownNames m = record.ownNames := by
  rw [ownNames, hs]

theorem ownNames_of_leaf (hs : G.source m = none) : G.ownNames m = G.names m := by
  rw [ownNames, hs]

def Stars (G : ExportGraph) (m x : ModuleId) : Prop :=
  ∃ record, G.source m = some record ∧ ∃ request ∈ record.starExports, G.target m request = some x

/-- A walk over the `export *` items of a module meets a request that is refused. -/
def StarRefused (G : ExportGraph) (m : ModuleId) : Prop :=
  ∃ x, ReflTransGen G.Stars m x ∧
    ∃ record, G.source x = some record ∧ ∃ request ∈ record.starExports, G.target x request = none

theorem StarRefused.head {x : ModuleId} (hx : G.Stars m x) (h : G.StarRefused x) :
    G.StarRefused m := by
  obtain ⟨y, hy, hr⟩ := h
  exact ⟨y, .head hx hy, hr⟩

/-! ## What a walk gathers -/

/-- A walk went on from some seen modules and collected names. The modules that it saw first have no
`export *` that it did not follow, and no name that it did not collect, unless that is `default`. -/
structure Surveys (G : ExportGraph) (seen : List ModuleId) (names : List String)
    (seen₁ : List ModuleId) (names₁ : List String) : Prop where
  grows : ∀ x ∈ seen, x ∈ seen₁
  keeps : ∀ n ∈ names, n ∈ names₁
  closed : ∀ x ∈ seen₁, x ∉ seen → ∀ y, G.Stars x y → y ∈ seen₁
  named : ∀ x ∈ seen₁, x ∉ seen → ∀ n ∈ G.ownNames x, n ≠ "default" → n ∈ names₁

namespace Surveys

theorem refl (seen : List ModuleId) (names : List String) : G.Surveys seen names seen names :=
  ⟨fun _ => id, fun _ => id, fun _ hx hn => absurd hx hn, fun _ hx hn => absurd hx hn⟩

theorem trans (h : G.Surveys seen names seen₁ names₁) (h' : G.Surveys seen₁ names₁ seen₂ names₂) :
    G.Surveys seen names seen₂ names₂ where
  grows x hx := h'.grows x (h.grows x hx)
  keeps n hn := h'.keeps n (h.keeps n hn)
  closed x hx hnew y hy := by
    by_cases hx₁ : x ∈ seen₁
    · exact h'.grows y (h.closed x hx₁ hnew y hy)
    · exact h'.closed x hx hx₁ y hy
  named x hx hnew n hn hd := by
    by_cases hx₁ : x ∈ seen₁
    · exact h'.keeps n (h.named x hx₁ hnew n hn hd)
    · exact h'.named x hx hx₁ n hn hd

/-- The names found behind one `export *` are added to those of the module. -/
theorem added (h : G.Surveys seen [] seen₁ names₁) (names : List String) :
    G.Surveys seen names seen₁ (addStarNames names names₁) where
  grows := h.grows
  keeps _ hn := mem_addStarNames.2 (.inl hn)
  closed := h.closed
  named x hx hnew n hn hd := mem_addStarNames.2 (.inr ⟨h.named x hx hnew n hn hd, hd⟩)

/-- A walk that started with nothing seen has seen all that its first module exports everything of,
directly or not. -/
theorem reached (h : G.Surveys [] names seen₁ names₁) (hm : m ∈ seen₁) {x : ModuleId}
    (hx : ReflTransGen G.Stars m x) : x ∈ seen₁ := by
  induction hx with
  | refl => exact hm
  | tail _ hxy ih => exact h.closed _ ih List.not_mem_nil _ hxy

end Surveys

def Follows (G : ExportGraph) (m : ModuleId) (requests : List String) (seen : List ModuleId)
    (names : List String) : Except Value (List String × List ModuleId) → Prop
  | .ok (names₁, seen₁) => G.Surveys seen names seen₁ names₁ ∧
      ∀ request ∈ requests, ∀ x, G.target m request = some x → x ∈ seen₁
  | .error _ => G.StarRefused m

/-- How the names of a module are collected. A module that was seen before gives nothing. -/
def Lists (G : ExportGraph) (m : ModuleId) (seen : List ModuleId) :
    Except Value (Option (List String) × List ModuleId) → Prop
  | .ok (found, seen₁) => G.Surveys seen [] seen₁ (found.getD []) ∧ m ∈ seen₁ ∧
      (m ∉ seen → ∀ n ∈ G.ownNames m, n ∈ found.getD [])
  | .error _ => G.StarRefused m

/-- The names of a module and what its `export *` items give. -/
theorem Follows.lists (hs : G.source m = some record) (hseen : m ∉ seen)
    {r : Except Value (List String × List ModuleId)}
    (h : G.Follows m record.starExports (seen ++ [m]) record.ownNames r) :
    G.Lists m seen (r.map fun p => (some p.1, p.2)) := by
  cases r with
  | error e => exact h
  | ok p =>
    obtain ⟨hg, hstars⟩ := h
    have hm : m ∈ p.2 := hg.grows m (List.mem_append_right _ (List.mem_singleton_self m))
    have hsplit : ∀ {x}, x ∉ seen → x = m ∨ x ∉ seen ++ [m] := by
      intro x hx
      simpa [hx] using em (x = m)
    have hown : ∀ n ∈ G.ownNames m, n ∈ p.1 := by
      rw [ownNames_of_source hs]
      exact hg.keeps
    refine ⟨⟨fun x hx => hg.grows x (List.mem_append_left _ hx), fun _ hn => (nomatch hn),
      fun x hx hnew y hy => ?_, fun x hx hnew n hn hd => ?_⟩, hm, fun _ => hown⟩
    · rcases hsplit hnew with rfl | hnew
      · obtain ⟨record', hs', request, hr, ht⟩ := hy
        cases hs.symm.trans hs'
        exact hstars request hr y ht
      · exact hg.closed x hx hnew y hy
    · rcases hsplit hnew with rfl | hnew
      · exact hown n hn
      · exact hg.named x hx hnew n hn hd

theorem lists_leaf (hs : G.source m = none) (seen : List ModuleId) :
    G.Lists m seen (.ok (some (G.names m), seen ++ [m])) := by
  have hnew : ∀ {x}, x ∈ seen ++ [m] → x ∉ seen → x = m := by
    intro x hx hn
    simpa [hn] using hx
  refine ⟨⟨fun x hx => List.mem_append_left _ hx, fun _ hn => (nomatch hn),
    fun x hx hn y hy => ?_, fun x hx hn n hname _ => ?_⟩,
    List.mem_append_right _ (List.mem_singleton_self m), fun _ => ?_⟩
  · obtain ⟨record, hr, -⟩ := hy
    rw [hnew hx hn, hs] at hr
    cases hr
  · rwa [hnew hx hn, ownNames_of_leaf hs] at hname
  · rw [ownNames_of_leaf hs]
    exact fun _ => id

/-! ## The walk -/

section Walk

variable (h : G.Serves world host)
include h

theorem collectStars_returns {depth : Nat}
    (ih : ∀ n seen s, world s → n ∈ G.modules → s.Has n → (unasked G.modules seen).card < depth →
      Returns world (exportedNames host depth n seen) s fun r _ => G.Lists n seen r)
    (hs : G.source m = some record) (hm : m ∈ G.modules) (requests : List String) :
    ∀ names seen s, (∀ request ∈ requests, request ∈ record.starExports) → world s → s.Has m →
      (unasked G.modules seen).card < depth →
        Returns world (collectStars (fun request seen => do
          let target ← host.resolve (.module m) request
          exportedNames host depth target seen) requests names seen) s
          fun r _ => G.Follows m requests seen names r := by
  induction requests with
  | nil => exact fun names seen s _ hw _ _ => .pure hw ⟨.refl seen names, fun _ hr => nomatch hr⟩
  | cons request rest ihr =>
    intro names seen s hstar hw hh hcard
    have hrequest := hstar request (List.mem_cons_self ..)
    have hvisit : Returns world (do
        let target ← host.resolve (.module m) request
        exportedNames host depth target seen) s
        fun r _ => G.Follows m [request] seen names
          (r.map fun p => (addStarNames names (p.1.getD []), p.2)) := by
      refine .bind (resolve_returns h hw hm hh request) (fun x s₁ hw₁ _ hx => ?_) fun e s₁ he => ?_
      · cases hx with
        | answered ht hhas =>
          refine (ih x seen s₁ hw₁ (G.closed hm ht) hhas hcard).mono fun r _ hr => ?_
          cases r with
          | error e => exact .head ⟨record, hs, request, hrequest, ht⟩ hr
          | ok p =>
            refine ⟨hr.1.added names, fun request' hr' y hy => ?_⟩
            rw [List.mem_singleton.1 hr', ht] at hy
            exact Option.some.inj hy ▸ hr.2.1
      · cases he with
        | refused ht => exact ⟨m, .refl, record, hs, request, hrequest, ht⟩
    refine .bind hvisit (fun p s₁ hw₁ hgrow hp => ?_) fun e s₁ he => he
    refine (ihr _ p.2 s₁ (fun r hr => hstar r (List.mem_cons_of_mem _ hr)) hw₁ (hgrow m hh)
      ((card_unasked_le _ hp.1.grows).trans_lt hcard)).mono fun r _ hr => ?_
    cases r with
    | error e => exact hr
    | ok q =>
      refine ⟨hp.1.trans hr.1, fun request' hr' x hx => ?_⟩
      rcases List.mem_cons.1 hr' with rfl | hr'
      · exact hr.1.grows x (hp.2 request' (List.mem_singleton_self _) x hx)
      · exact hr.2 request' hr' x hx

theorem exportedNames_returns (depth : Nat) :
    ∀ m seen s, world s → m ∈ G.modules → s.Has m → (unasked G.modules seen).card < depth →
      Returns world (exportedNames host depth m seen) s fun r _ => G.Lists m seen r := by
  induction depth with
  | zero => exact fun _ _ _ _ _ _ hcard => absurd hcard (Nat.not_lt_zero _)
  | succ depth ih =>
    intro m seen s hw hm hh hcard
    rw [exportedNames]
    by_cases hseen : m ∈ seen
    · rw [if_pos (List.contains_iff_mem.2 hseen)]
      exact .pure hw ⟨.refl _ _, hseen, fun hn => absurd hseen hn⟩
    · have hcard' : (unasked G.modules (seen ++ [m])).card < depth :=
        (card_unasked_lt _ hm hseen (List.mem_append_right _ (List.mem_singleton_self m))
          fun x hx => List.mem_append_left _ hx).trans_le (Nat.le_of_lt_succ hcard)
      rw [if_neg (by simpa using hseen)]
      have hrec : Act.view (fun s => s.record? m) s = some (.ok (G.source m), s) := by
        rw [Act.view_apply, h.record hw hm hh]
      refine .step hrec (h.refl s) hw fun _ _ => ?_
      cases hs : G.source m with
      | none =>
        obtain ⟨s', hrun⟩ := h.exports hw hm hh hs
        have hnames : Returns world (Act.ofRun (host.exportedNames m)) s
            fun r _ => r = .ok (G.names m) :=
          .of_within (h.exportedNames m) hw ⟨_, s', Act.ofRun_eq_some.2 ⟨_, rfl, hrun⟩, rfl⟩
        refine .bind hnames (fun names s₁ hw₁ _ hn => ?_) fun e s₁ he => by cases he
        cases hn
        exact .pure hw₁ (lists_leaf hs seen)
      | some record =>
        refine .bind (collectStars_returns h ih hs hm record.starExports record.ownNames _ s
          (fun _ => id) hw hh hcard') (fun p s₁ hw₁ _ hp => ?_) fun e s₁ he => he
        exact .pure hw₁ (Follows.lists hs hseen (r := .ok p) hp)

end Walk

/-! ## No name is lost -/

/-- A name that stands for something is among the names of the module, or of one that it exports
everything of. -/
theorem Provides.named (hb : G.Provides (m, n) b) : n ∈ G.ownNames m ∨
    n ≠ "default" ∧ ∃ x, ReflTransGen G.Stars m x ∧ n ∈ G.ownNames x := by
  obtain ⟨q, hq, hy⟩ := hb
  generalize hp : (m, n) = p at hq
  induction hq using ReflTransGen.head_induction_on generalizing m with
  | refl =>
    subst hp
    left
    cases hy with
    | own hs ho => exact ownNames_of_source hs ▸ SourceRecord.mem_ownNames_of_own ho
    | «namespace» hs _ hi => exact ownNames_of_source hs ▸ SourceRecord.mem_ownNames_of_indirect hi
    | leaf hs hn => rwa [ownNames_of_leaf hs]
  | head hl _ ih =>
    subst hp
    cases hl with
    | indirect hs _ hi =>
      exact .inl (ownNames_of_source hs ▸ SourceRecord.mem_ownNames_of_indirect hi)
    | star hs _ _ hd hr ht =>
      have hstar : G.Stars m _ := ⟨_, hs, _, hr, ht⟩
      rcases ih rfl with hn | ⟨-, x, hx, hn⟩
      · exact .inr ⟨hd, _, .single hstar, hn⟩
      · exact .inr ⟨hd, x, .head hstar hx, hn⟩

/-- A walk that starts with a module finds each of its names that stands for something. -/
theorem Lists.complete {found : Option (List String)} (h : G.Lists m [] (.ok (found, seen)))
    (hb : G.Provides (m, n) b) : n ∈ found.getD [] := by
  obtain ⟨hg, hm, hown⟩ := h
  rcases hb.named with hn | ⟨hd, x, hx, hn⟩
  · exact hown List.not_mem_nil n hn
  · exact hg.named x (hg.reached hm hx) List.not_mem_nil n hn hd

end ExportGraph

end ModuleGraph
