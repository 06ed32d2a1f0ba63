import ModuleGraph.Proofs.Exports.Keys

/-! # Hosts that answer alike

A resolver that is tried again may answer where it threw before, but it gives the same module
wherever it gave one. Whatever a lookup returned with the first resolver it then returns with the
second one, in whatever machine it is made. So does the initialization of a module, if the hooks
depend only on the module that they are given. -/

namespace ModuleGraph

open Syntax

variable {σ κ α β ε : Type}

/-! ## Work that is done again -/

/-- What the first work returns in one machine of a world, the second work returns in all of them.
Nothing is said of work that throws. -/
def Redone (world : Machine σ κ → Prop) (x y : ExceptT ε (Run σ κ) α) : Prop :=
  ∀ s s' a s₁, world s → world s' → x s = some (.ok a, s₁) → ∃ s₁', y s' = some (.ok a, s₁')

namespace Redone

variable {world : Machine σ κ → Prop} {x y : ExceptT ε (Run σ κ) α}
variable {f g : α → ExceptT ε (Run σ κ) β}

protected theorem pure (a : α) : Redone world (pure a : ExceptT ε (Run σ κ) α) (pure a) := by
  intro s s' b s₁ _ _ h
  cases h
  exact ⟨s', rfl⟩

protected theorem throw (e : ε) : Redone world (throw e : ExceptT ε (Run σ κ) α) y := by
  intro s s' a s₁ _ _ h
  cases h

theorem exhausted {y : Act σ κ α} : Redone world (Act.ofRun Run.exhausted) y := by
  intro s s' a s₁ _ _ h
  obtain ⟨b, -, h⟩ := Act.ofRun_eq_some.1 h
  cases h

theorem mono {wider : Machine σ κ → Prop} (h : Redone wider x y) (hw : ∀ s, world s → wider s) :
    Redone world x y := fun s s' a s₁ hs hs' hrun =>
  h s s' a s₁ (hw s hs) (hw s' hs') hrun

protected theorem bind (h : Redone world x y) (hx : Within (Machine.Stays world) x)
    (hy : Within (Machine.Stays world) y) (hf : ∀ a, Redone world (f a) (g a)) :
    Redone world (x >>= f) (y >>= g) := by
  intro s s' b s₂ hs hs' hrun
  obtain ⟨a, s₁, h₁, h₂⟩ | ⟨e, -, he⟩ := throwing_bind.1 hrun
  · obtain ⟨s₁', h₁'⟩ := h _ _ _ _ hs hs' h₁
    obtain ⟨s₂', h₂'⟩ := hf a _ _ _ _ (hx _ _ _ h₁ hs).1 (hy _ _ _ h₁' hs').1 h₂
    exact ⟨s₂', throwing_bind.2 (.inl ⟨a, s₁', h₁', h₂'⟩)⟩
  · cases he

/-- Work that depends on what all machines of the world show. -/
theorem view_bind {look : Machine σ κ → α} {f g : α → Act σ κ β}
    (hlook : ∀ s s', world s → world s' → look s' = look s) (hf : ∀ a, Redone world (f a) (g a)) :
    Redone world (Act.view look >>= f) (Act.view look >>= g) := by
  intro s s' b s₁ hs hs' hrun
  rw [Act.view_bind] at hrun
  rw [Act.view_bind, hlook s s' hs hs']
  exact hf _ _ _ _ _ hs hs' hrun

theorem ofAct {wrap wrap' : Value → LinkError} {a b : Act σ κ α} (h : Redone world a b) :
    Redone world (Linking.ofAct wrap a) (Linking.ofAct wrap' b) := by
  intro s s' v s₁ hs hs' hrun
  obtain ⟨x, hx, hv⟩ := Linking.ofAct_eq_some.1 hrun
  cases x with
  | error e => cases hv
  | ok v' =>
    cases hv
    obtain ⟨s₁', hb⟩ := h _ _ _ _ hs hs' hx
    exact ⟨s₁', Linking.ofAct_eq_some.2 ⟨_, hb, rfl⟩⟩

protected theorem forM {f g : β → ExceptT ε (Run σ κ) PUnit}
    (hf : ∀ x, Within (Machine.Stays world) (f x)) (hg : ∀ x, Within (Machine.Stays world) (g x))
    (h : ∀ x, Redone world (f x) (g x)) (xs : List β) :
    Redone world (xs.forM f) (xs.forM g) := by
  induction xs with
  | nil => exact Redone.pure _
  | cons x rest ih => exact (h x).bind (hf x) (hg x) fun _ => ih

end Redone

/-! ## Hosts -/

/-- The second host does in a link whatever the first one does, in all machines of a world, and may
go on where the first one throws. What it does for a module depends on nothing but the module; to
prepare one is to work on its environment. -/
structure Host.Extends (second : Host σ κ) (world : Machine σ κ → Prop) (first : Host σ κ) :
    Prop where
  depth : second.depth = first.depth
  resolve : ∀ m request,
    Redone world (first.resolve (.module m) request) (second.resolve (.module m) request)
  exportedNames : ∀ m,
    Redone world (Act.ofRun (first.exportedNames m)) (Act.ofRun (second.exportedNames m))
  resolveExport : ∀ m name visited,
    Redone world (first.resolveExport m name visited) (second.resolveExport m name visited)
  linkLeaf : ∀ m, Redone world (first.linkLeaf m) (second.linkLeaf m)
  initializeForeign : ∀ m, Redone world (first.initializeForeign m) (second.initializeForeign m)
  instantiateForeign : ∀ m, Redone world (first.instantiateForeign m) (second.instantiateForeign m)
  prepare : ∀ {m s s' s₁}, world s → world s' → s'.environment? m = s.environment? m →
    first.prepare m s = some (.ok (), s₁) →
    ∃ s₁', second.prepare m s' = some (.ok (), s₁') ∧ s₁'.environment? m = s₁.environment? m

/-- The machines of a world have the same modules, made of the same texts, and no change of a module
that leaves its text leads out of it. -/
structure OneText (world : Machine σ κ → Prop) : Prop where
  size : ∀ {s s'}, world s → world s' → s'.modules.size = s.modules.size
  text : ∀ {s s'}, world s → world s' → ∀ m, (s.module m).kind.SameText (s'.module m).kind
  update : ∀ {s} m {f : Module → Module}, (∀ x : Module, x.kind.SameText (f x).kind) → world s →
    world (s.updateModule m f)

namespace OneText

variable {world : Machine σ κ → Prop} {s s' : Machine σ κ} {m : ModuleId}

theorem record (h : OneText world) (hs : world s) (hs' : world s') (m : ModuleId) :
    s'.record? m = s.record? m := (h.text hs hs' m).1

theorem requested (h : OneText world) (hs : world s) (hs' : world s') (m : ModuleId) :
    s'.requested m = s.requested m := by
  have ht := (h.text hs hs' m).2
  rw [Machine.requested, Machine.cyclic?_eq, ht, Machine.requested, Machine.cyclic?_eq]

theorem isCyclic (h : OneText world) (hs : world s) (hs' : world s') (m : ModuleId) :
    s'.isCyclic m = s.isCyclic m := by
  have ht := congrArg Option.isSome (h.text hs hs' m).2
  simpa [Machine.isCyclic, Machine.cyclic?_eq] using ht

theorem has (h : OneText world) (hs : world s) (hs' : world s') : s'.Has m ↔ s.Has m := by
  rw [Machine.Has, Machine.Has, h.size hs hs']

end OneText

namespace Host.Extends

variable {world : Machine σ κ → Prop} {first second : Host σ κ} {m : ModuleId}

section Lookups

variable (h : second.Extends world first) (ht : OneText world)
variable (hf : Asks first (Machine.Stays world)) (hs : Asks second (Machine.Stays world))

theorem joinStars {visit visit' : String → Visited → Act σ κ (Option Resolution × Visited)}
    (hv : ∀ request visited, Within (Machine.Stays world) (visit request visited))
    (hv' : ∀ request visited, Within (Machine.Stays world) (visit' request visited))
    (hvisit : ∀ request visited, Redone world (visit request visited) (visit' request visited))
    (requests : List String) :
    ∀ found visited, Redone world (ModuleGraph.joinStars visit requests found visited)
      (ModuleGraph.joinStars visit' requests found visited) := by
  induction requests with
  | nil => exact fun _ _ => Redone.pure _
  | cons request rest ih =>
    intro found visited
    rw [ModuleGraph.joinStars, ModuleGraph.joinStars]
    refine (hvisit request visited).bind (hv _ _) (hv' _ _) ?_
    rintro ⟨_ | ⟨m, b⟩ | _, visited'⟩
    · exact ih _ _
    · cases found with
      | none => exact ih _ _
      | some other =>
        dsimp only
        split
        · exact ih _ _
        · exact Redone.pure _
    · exact Redone.pure _

include h ht hf hs

theorem resolved (depth : Nat) : ∀ m name visited,
    Redone world (ModuleGraph.resolveExport first depth m name visited)
      (ModuleGraph.resolveExport second depth m name visited) := by
  induction depth with
  | zero => exact fun _ _ _ => Redone.exhausted
  | succ depth ih =>
    intro m name visited
    rw [ModuleGraph.resolveExport, ModuleGraph.resolveExport]
    refine Redone.view_bind (fun _ _ h₁ h₂ => ht.record h₁ h₂ m) fun record => ?_
    split
    · exact h.resolveExport _ _ _
    · split
      · exact Redone.pure _
      · split
        · exact Redone.pure _
        · split
          · refine (h.resolve _ _).bind (hf.resolve _ _) (hs.resolve _ _) fun target => ?_
            split
            · exact Redone.pure _
            · exact ih _ _ _
          · split
            · exact Redone.pure _
            · refine joinStars (fun request visited => ?_) (fun request visited => ?_)
                (fun request visited => ?_) _ _ _
              · exact Within.bind hf.toComposes (hf.resolve _ _) fun _ => hf.resolved _ _ _ _
              · exact Within.bind hs.toComposes (hs.resolve _ _) fun _ => hs.resolved _ _ _ _
              · exact (h.resolve _ _).bind (hf.resolve _ _) (hs.resolve _ _) fun _ => ih _ _ _

theorem resolution (m : ModuleId) (name : String) :
    Redone world (first.resolution m name) (second.resolution m name) := by
  rw [Host.resolution, Host.resolution, h.depth]
  exact (h.resolved ht hf hs _ m name []).bind (hf.resolved _ _ _ _) (hs.resolved _ _ _ _)
    fun _ => Redone.pure _

theorem boundTo (m : ModuleId) (name : String) :
    Redone world (first.boundTo m name) (second.boundTo m name) := by
  refine (h.resolution ht hf hs m name).bind (hf.resolution m name) (hs.resolution m name)
    fun found => ?_
  split <;> exact Redone.pure _

omit h ht hf hs in
theorem collectStars
    {visit visit' : String → List ModuleId → Act σ κ (Option (List String) × List ModuleId)}
    (hv : ∀ request seen, Within (Machine.Stays world) (visit request seen))
    (hv' : ∀ request seen, Within (Machine.Stays world) (visit' request seen))
    (hvisit : ∀ request seen, Redone world (visit request seen) (visit' request seen))
    (requests : List String) :
    ∀ names seen, Redone world (ModuleGraph.collectStars visit requests names seen)
      (ModuleGraph.collectStars visit' requests names seen) := by
  induction requests with
  | nil => exact fun _ _ => Redone.pure _
  | cons request rest ih =>
    intro names seen
    rw [ModuleGraph.collectStars, ModuleGraph.collectStars]
    exact (hvisit request seen).bind (hv _ _) (hv' _ _) fun _ => ih _ _

theorem names (depth : Nat) : ∀ m seen,
    Redone world (ModuleGraph.exportedNames first depth m seen)
      (ModuleGraph.exportedNames second depth m seen) := by
  induction depth with
  | zero => exact fun _ _ => Redone.exhausted
  | succ depth ih =>
    intro m seen
    rw [ModuleGraph.exportedNames, ModuleGraph.exportedNames]
    split
    · exact Redone.pure _
    · refine Redone.view_bind (fun _ _ h₁ h₂ => ht.record h₁ h₂ m) fun record => ?_
      split
      · exact (h.exportedNames m).bind (hf.exportedNames m) (hs.exportedNames m)
          fun _ => Redone.pure _
      · refine (collectStars (fun request seen => ?_) (fun request seen => ?_)
          (fun request seen => ?_) _ _ _).bind (hf.collectStars (fun request seen => ?_) _ _ _)
            (hs.collectStars (fun request seen => ?_) _ _ _) fun _ => Redone.pure _
        · exact Within.bind hf.toComposes (hf.resolve _ _) fun _ => hf.names _ _ _
        · exact Within.bind hs.toComposes (hs.resolve _ _) fun _ => hs.names _ _ _
        · exact (h.resolve _ _).bind (hf.resolve _ _) (hs.resolve _ _) fun _ => ih _ _
        · exact Within.bind hf.toComposes (hf.resolve _ _) fun _ => hf.names _ _ _
        · exact Within.bind hs.toComposes (hs.resolve _ _) fun _ => hs.names _ _ _

theorem keepResolvable (m : ModuleId) (names : List String) :
    Redone world (ModuleGraph.keepResolvable first m names)
      (ModuleGraph.keepResolvable second m names) := by
  induction names with
  | nil => exact Redone.pure _
  | cons name rest ih =>
    rw [ModuleGraph.keepResolvable, ModuleGraph.keepResolvable]
    refine (h.boundTo ht hf hs m name).bind (hf.boundTo m name) (hs.boundTo m name) fun found => ?_
    exact ih.bind (hf.keepResolvable m rest) (hs.keepResolvable m rest) fun _ => Redone.pure _

end Lookups

end Host.Extends

end ModuleGraph
