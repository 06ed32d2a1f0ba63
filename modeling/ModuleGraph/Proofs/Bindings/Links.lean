import ModuleGraph.Proofs.Bindings.Lasting

/-! # Links and what was linked before

A link marks modules, makes environments and takes them away again. It does so only to modules that
were not linked when it started: each module comes onto the stack when it is unlinked, and whatever
the host does meanwhile, a module that is linked does not become unlinked. So a link secures what
was linked before, whether it succeeds or fails. -/

namespace ModuleGraph

variable {σ κ α β : Type} {host : Host σ κ} {start s s' : Machine σ κ} {t t' : Traversal}
variable {m : ModuleId}

namespace Machine

def StaysSecure (start s s' : Machine σ κ) : Prop := start.Secures s → start.Secures s'

theorem staysSecure_composes (start : Machine σ κ) : Composes (Machine.StaysSecure start) where
  refl _ := id
  trans h h' := h' ∘ h

theorem Secures.stays (h : s.Secures s') : start.StaysSecure s s' :=
  fun hs => Secures.composes.trans hs h

/-- What holds in the midst of a link: what was linked when it started is secure and not open. -/
structure Shields (start : Machine σ κ) (t : Traversal) (s : Machine σ κ) : Prop where
  secures : start.Secures s
  apart : ∀ x ∈ t.stack, ¬(start.status x).IsLinked

theorem Shields.then (h : start.Shields t s) (hs : start.StaysSecure s s') :
    start.Shields t s' := ⟨hs h.secures, h.apart⟩

/-- What is not linked now was not linked at the start. -/
theorem Shields.not_linked (h : start.Shields t s) (hm : ¬(s.status m).IsLinked) :
    ¬(start.status m).IsLinked := fun hn => hm (h.secures.isLinked hn)

end Machine

/-! ## Parts of a visit -/

def LinkVisit.Safe (start : Machine σ κ) (v : LinkVisit σ κ α) : Prop :=
  ∀ t s r t' s', v t s = some ((r, t'), s') → start.Shields t s → start.Shields t' s'

namespace LinkVisit.Safe

protected theorem pure (a : α) : Safe start (pure a : LinkVisit σ κ α) := by
  intro t s r t' s' hrun h
  cases hrun
  exact h

protected theorem bind {v : LinkVisit σ κ α} {f : α → LinkVisit σ κ β} (hv : Safe start v)
    (hf : ∀ a, Safe start (f a)) : Safe start (v >>= f) := by
  intro t s r t' s' hrun h
  obtain ⟨a, t₁, s₁, h₁, h₂⟩ | ⟨e, h₁, -⟩ := visit_bind.1 hrun
  · exact hf a _ _ _ _ _ h₂ (hv _ _ _ _ _ h₁ h)
  · exact hv _ _ _ _ _ h₁ h

protected theorem forM {f : β → LinkVisit σ κ PUnit} (hf : ∀ x, Safe start (f x)) (xs : List β) :
    Safe start (xs.forM f) := by
  induction xs with
  | nil => exact .pure _
  | cons x rest ih => exact .bind (hf x) fun _ => ih

theorem ofLinking {l : Linking σ κ α} (hl : Within (Machine.StaysSecure start) l) :
    Safe start (LinkVisit.ofLinking l) := by
  intro t s r t' s' hvisit h
  obtain ⟨rfl, hrun⟩ := LinkVisit.ofLinking_eq_some.1 hvisit
  exact h.then (hl _ _ _ hrun)

theorem view (f : Machine σ κ → α) : Safe start (LinkVisit.view f) := by
  intro t s r t' s' hrun h
  cases hrun
  exact h

theorem update {f : Machine σ κ → Machine σ κ} (hf : ∀ s : Machine σ κ, s.Secures (f s)) :
    Safe start (LinkVisit.update f) := by
  intro t s r t' s' hrun h
  cases hrun
  exact h.then (hf s).stays

theorem reachOpen (m required : ModuleId) :
    Safe start (LinkVisit.update (ModuleGraph.reachOpen m required) : LinkVisit σ κ Unit) := by
  refine update fun (s : Machine σ κ) => ?_
  rw [ModuleGraph.reachOpen]
  split
  · split
    · exact .updateCyclic fun _ => .inl rfl
    · exact Machine.Secures.composes.refl s
  · exact Machine.Secures.composes.refl s

theorem closeLinking (m : ModuleId) :
    Safe start (ModuleGraph.closeLinking m : LinkVisit σ κ Unit) := by
  refine .bind (view _) fun isRoot => ?_
  split
  · intro t s r t' s' hrun h
    cases hrun
    have hlinked := Machine.Secures.composes.foldl
      (g := fun s x => s.setStatus x .linked) Machine.Secures.setStatus_linked (t.close m).1 s
    refine ⟨hlinked.stays h.secures, fun x hx => h.apart x ?_⟩
    rw [← t.close_append m]
    exact List.mem_append_right _ hx
  · exact .pure _

end LinkVisit.Safe

theorem Machine.Shields.openLinking {c : Cyclic} (h : start.Shields t s)
    (hc : s.cyclic? m = some c) (hu : c.status = .unlinked) :
    ¬(start.status m).IsLinked ∧
      start.Shields ⟨m :: t.stack, t.visits + 1⟩ (s.updateCyclic m (.opened t.visits)) := by
  have hm : ¬(start.status m).IsLinked := h.not_linked (by
    rw [status_of_cyclic? hc, hu]
    exact id)
  exact ⟨hm, h.secures.updateKind_other hm _, List.forall_mem_cons.2 ⟨hm, h.apart⟩⟩

/-! ## Links -/

section Hooks

variable (h : Hooks host (Machine.Secures (σ := σ) (κ := κ)))
include h

theorem asks_staysSecure (start : Machine σ κ) : Asks host (Machine.StaysSecure start) :=
  (looksUp_secures h).asks.mono (Machine.staysSecure_composes start) .stays

theorem linkLeaf_staysSecure (path : List String) (m : ModuleId) :
    Within (Machine.StaysSecure start) (linkLeaf host path m) := by
  have hc := Machine.staysSecure_composes start
  refine Within.bind hc (fun s r s' e => ?_) fun kind => ?_
  · cases e
    exact hc.refl s
  · split
    · refine Within.bind hc (Within.ofAct fun s r s' hrun => ?_) fun _ s r s' e => ?_
      · exact (h.linkLeaf m _ _ _ hrun).stays
      · cases e
        refine Machine.Secures.stays (.updateModule fun hm => ?_)
        dsimp only
        split
        · rename_i hk
          rw [hk]
          exact .leaf trivial
        · exact .refl hm
    · exact Within.pure hc _

/-- A module that was not linked when the link started is initialized. -/
theorem initializes_staysSecure (hm : ¬(start.status m).IsLinked) :
    Initializes host m (Machine.StaysSecure start) where
  toAsks := asks_staysSecure h start
  keys n s r s' hrun := ((looksUp_secures h).namespaceKeys n s r s' hrun).stays
  prepare s r s' hrun := (h.prepare m s r s' hrun).stays
  foreign s r s' hrun := (h.initializeForeign m s r s' hrun).stays
  instantiate s r s' hrun := (h.instantiateForeign m s r s' hrun).stays
  environment _ _ hs := hs.updateKind_other hm _
  instantiated _ _ hs := hs.updateKind_other hm _

theorem visitLinking_safe (depth : Nat) :
    ∀ path m, LinkVisit.Safe start (visitLinking host depth path m) := by
  induction depth with
  | zero =>
    intro path m t s r t' s' hrun
    cases hrun
  | succ depth ih =>
    intro path m t s r t' s' hrun hs
    rw [visitLinking, LinkVisit.view_bind] at hrun
    cases hc : s.cyclic? m with
    | none =>
      rw [hc] at hrun
      exact LinkVisit.Safe.ofLinking (linkLeaf_staysSecure h path m) _ _ _ _ _ hrun hs
    | some c =>
      simp only [hc] at hrun
      split at hrun
      · rename_i hu
        obtain ⟨hm, hopened⟩ := hs.openLinking hc hu
        obtain ⟨_, t₁, s₁, h₁, hrun⟩ | ⟨e, h₁, -⟩ := visit_bind.1 hrun
        · cases (openLinking_apply m t s).symm.trans h₁
          have hrequest : ∀ request, LinkVisit.Safe start
              (Machine.requestLinking host depth path m request) := fun request =>
            .bind (.ofLinking ((asks_staysSecure h start).resolveRequest path m request))
              fun required => .bind (ih _ required) fun _ => .reachOpen m required
          have hrest := LinkVisit.Safe.bind (.forM hrequest c.requested) fun _ =>
            .bind (.ofLinking ((initializes_staysSecure h hm).initializeModule path)) fun _ =>
              .closeLinking m
          exact hrest _ _ _ _ _ hrun hopened
        · cases (openLinking_apply m t s).symm.trans h₁
      · cases hrun
        exact hs

/-- What is open when a link fails is taken back. -/
theorem link_secures (m : ModuleId) : Along Machine.Secures (host.link m) := by
  intro s r s' hrun
  obtain ⟨⟨result, t⟩, s₁, hvisit, hrun⟩ := Run.bind_eq_some.1 hrun
  have hfirst : s.Shields ⟨[], 0⟩ s := ⟨Machine.Secures.composes.refl s, nofun⟩
  have hs := visitLinking_safe h host.depth [] m _ _ _ _ _ hvisit hfirst
  cases result with
  | ok u =>
    cases hrun
    exact hs.secures
  | error e =>
    cases hrun
    change s.Secures (t.stack.foldl Machine.unlink s₁)
    rw [Machine.foldl_unlink_eq]
    have hback : ∀ stack : List ModuleId, (∀ x ∈ stack, ¬(s.status x).IsLinked) → ∀ s₁,
        s.Secures s₁ → s.Secures (stack.foldl (fun s x => s.updateKind x Machine.takeBack) s₁) := by
      intro stack
      induction stack with
      | nil => exact fun _ _ => id
      | cons x rest ih =>
        intro hstack s₁ hs
        obtain ⟨hx, hrest⟩ := List.forall_mem_cons.1 hstack
        exact ih hrest _ (hs.updateKind_other hx _)
    exact hback t.stack hs.apart s₁ hs.secures

theorem carriesJobs_secures : CarriesJobs host (.plain (Machine.Secures (σ := σ) (κ := κ))) :=
  .of_aside (carries_secures h) h (link_secures h) fun ha => .of_modules ha.1

end Hooks

end ModuleGraph
