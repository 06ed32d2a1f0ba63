import ModuleGraph.Machine.Basic

/-! # Places of the machine

What is put at a place is found there, and all other places keep what they hold. Something new gets
a place of its own. -/

namespace ModuleGraph.Machine

variable {σ κ : Type}

@[simp] theorem size_updateModule (s : Machine σ κ) (m : ModuleId) (f : Module → Module) :
    (s.updateModule m f).modules.size = s.modules.size := by
  simp [updateModule]

theorem module_updateModule_self (s : Machine σ κ) {m : ModuleId} (f : Module → Module)
    (h : m.index < s.modules.size) : (s.updateModule m f).module m = f (s.module m) := by
  simp [updateModule, module, Array.getElem_modify, h]

theorem module_updateModule_of_ne (s : Machine σ κ) {m n : ModuleId} (f : Module → Module)
    (h : m ≠ n) : (s.updateModule m f).module n = s.module n := by
  have hi : m.index ≠ n.index := fun e => h (by cases m; cases n; cases e; rfl)
  simp [updateModule, module, Array.getD_eq_getD_getElem?, Array.getElem?_modify, hi]

theorem module_newModule_self (s : Machine σ κ) (m : Module) :
    (s.newModule m).2.module (s.newModule m).1 = m := by
  simp [newModule, module, Array.getD_eq_getD_getElem?]

@[simp] theorem size_setPromise (s : Machine σ κ) (p : PromiseId) (state : PromiseState) :
    (s.setPromise p state).promises.size = s.promises.size := by
  simp [setPromise]

theorem promise_setPromise_self (s : Machine σ κ) {p : PromiseId} (state : PromiseState)
    (h : p.index < s.promises.size) : (s.setPromise p state).promise p = state := by
  simp [setPromise, promise, h]

theorem promise_setPromise_of_ne (s : Machine σ κ) {p q : PromiseId} (state : PromiseState)
    (h : p ≠ q) : (s.setPromise p state).promise q = s.promise q := by
  have hi : p.index ≠ q.index := fun e => h (by cases p; cases q; cases e; rfl)
  simp [setPromise, promise, Array.getD_eq_getD_getElem?, hi]

theorem promise_newPromise_self (s : Machine σ κ) (state : PromiseState) :
    (s.newPromise state).2.promise (s.newPromise state).1 = state := by
  simp [newPromise, promise, Array.getD_eq_getD_getElem?]

theorem object_setObject_self (s : Machine σ κ) {o : ObjectId} (properties : Properties)
    (h : o.index < s.objects.size) : (s.setObject o properties).object o = properties := by
  simp [setObject, object, h]

end ModuleGraph.Machine
