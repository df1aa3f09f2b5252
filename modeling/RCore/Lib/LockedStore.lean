import Mathlib.Logic.Function.Basic
import Mathlib.Data.List.Basic

/-!
# Programs over a store of lockable blocks

A storage stack is a program that takes a block, looks at it or replaces it
while it holds it, possibly taking further blocks meanwhile, and gives it back.
`Prog` is the tree of such requests.  It has two readings:

* `Prog.run` — on the plain store `View`, which is the contents of every block
  and the list of blocks held.  A block that is held cannot be taken again, and
  at most `cap` blocks are held at once.  With `ro` set, a store that would
  change a block is refused as well;
* `Prog.exec` — on any concrete implementation of the requests, a `Backend`.

`Simulation.exec_of_run` transfers every successful run on the plain store to a
backend whose requests are simulated one by one, and `Simulation.exec_eq_none`
every run that fails.
-/

namespace RCore.Lib.LockedStore

open Function List Option

/-- A program over blocks of type `β` that returns an `α`. -/
inductive Prog (β α : Type) where
  | ret (a : α)
  | panic
  | acquire (id : Nat) (k : Prog β α)
  | release (id : Nat) (k : Prog β α)
  | load (id : Nat) (k : β → Prog β α)
  | store (id : Nat) (b : β) (k : Prog β α)
  | syncAll (k : Prog β α)

/-- The plain store: what every block holds, and the blocks held, newest first. -/
structure View (β : Type) where
  blk : Nat → β
  held : List Nat

namespace Prog

variable {β α γ : Type}

def bind : Prog β α → (α → Prog β γ) → Prog β γ
  | ret a, f => f a
  | panic, _ => panic
  | acquire id k, f => acquire id (bind k f)
  | release id k, f => release id (bind k f)
  | load id k, f => load id (fun b => bind (k b) f)
  | store id b k, f => store id b (bind k f)
  | syncAll k, f => syncAll (bind k f)

instance : Monad (Prog β) where
  pure := ret
  bind := bind

/-- Unwrap an option, as `Option::unwrap` does. -/
def unwrap : Option α → Prog β α
  | some a => ret a
  | none => panic

/-- Stop unless the condition holds, as `assert!` does. -/
def check (c : Bool) : Prog β Unit := if c then ret () else panic

/-- Take block `id`, hand its contents to `f`, and give it back. -/
def withRead (id : Nat) (f : β → Prog β α) : Prog β α :=
  acquire id (load id fun b => do
    let a ← f b
    release id (ret a))

/-- Take block `id`, replace its contents by what `f` returns, and give it back. -/
def withModify (id : Nat) (f : β → Prog β (α × β)) : Prog β α :=
  acquire id (load id fun b => do
    let r ← f b
    store id r.2 (release id (ret r.1)))

/-! ## Runs on the plain store -/

section Run

variable [DecidableEq β] (cap : Nat) (ro : Bool)

def run : Prog β α → View β → Option (α × View β)
  | ret a, v => some (a, v)
  | panic, _ => none
  | acquire id k, v =>
      if id ∈ v.held ∨ cap ≤ v.held.length then none
      else run k { v with held := id :: v.held }
  | release id k, v =>
      if id ∈ v.held then run k { v with held := v.held.erase id } else none
  | load id k, v => if id ∈ v.held then run (k (v.blk id)) v else none
  | store id b k, v =>
      if id ∈ v.held ∧ (ro = true → b = v.blk id) then
        run k { v with blk := Function.update v.blk id b }
      else none
  | syncAll k, v => if v.held = [] then run k v else none

attribute [local simp] run

variable {cap : Nat} {ro : Bool}

section Inversion

variable {v : View β} {r : α × View β} {id : Nat} {k : Prog β α}

theorem run_acquire_iff : (acquire id k).run cap ro v = some r ↔
    id ∉ v.held ∧ v.held.length < cap ∧ k.run cap ro { v with held := id :: v.held } = some r := by
  rw [run, ite_none_left_eq_some, not_or, Nat.not_le, and_assoc]

theorem run_release_iff : (release id k).run cap ro v = some r ↔
    id ∈ v.held ∧ k.run cap ro { v with held := v.held.erase id } = some r := by
  rw [run, ite_none_right_eq_some]

theorem run_load_iff {k : β → Prog β α} : (load id k).run cap ro v = some r ↔
    id ∈ v.held ∧ (k (v.blk id)).run cap ro v = some r := by
  rw [run, ite_none_right_eq_some]

theorem run_store_iff {b : β} : (store id b k).run cap ro v = some r ↔
    id ∈ v.held ∧ (ro = true → b = v.blk id) ∧
      k.run cap ro { v with blk := update v.blk id b } = some r := by
  rw [run, ite_none_right_eq_some, and_assoc]

theorem run_syncAll_iff : (syncAll k).run cap ro v = some r ↔
    v.held = [] ∧ k.run cap ro v = some r := by
  rw [run, ite_none_right_eq_some]

end Inversion

theorem run_bind (p : Prog β α) (f : α → Prog β γ) (v : View β) :
    (p >>= f).run cap ro v = (p.run cap ro v).bind fun r => (f r.1).run cap ro r.2 := by
  change (p.bind f).run cap ro v = _
  induction p generalizing v with
  | ret a => rfl
  | panic => rfl
  | acquire id k ih | release id k ih | store id b k ih | syncAll k ih =>
    simp only [bind, run]
    split
    · first | rfl | exact ih _
    · first | rfl | exact ih _
  | load id k ih =>
    simp only [bind, run]
    split
    · exact ih _ v
    · rfl

theorem run_bind_some {p : Prog β α} {f : α → Prog β γ} {v v' : View β} {a : α}
    (h : p.run cap ro v = some (a, v')) :
    (p >>= f).run cap ro v = (f a).run cap ro v' := by
  rw [run_bind, h]
  rfl

@[simp] theorem run_pure (a : α) (v : View β) :
    (pure a : Prog β α).run cap ro v = some (a, v) := rfl

@[simp] theorem run_unwrap_some (a : α) (v : View β) :
    (unwrap (some a) : Prog β α).run cap ro v = some (a, v) := rfl

@[simp] theorem run_check_true (v : View β) :
    (check true : Prog β Unit).run cap ro v = some ((), v) := rfl

theorem run_withRead {id : Nat} {f : β → Prog β α} {blk blk' : Nat → β}
    {held : List Nat} {a : α} (hid : id ∉ held) (hcap : held.length < cap)
    (hbody : (f (blk id)).run cap ro ⟨blk, id :: held⟩ = some (a, ⟨blk', id :: held⟩)) :
    (withRead id f).run cap ro ⟨blk, held⟩ = some (a, ⟨blk', held⟩) := by
  refine run_acquire_iff.mpr ⟨hid, hcap, run_load_iff.mpr ⟨mem_cons_self, ?_⟩⟩
  rw [run_bind_some hbody]
  simp

theorem run_withModify {id : Nat} {f : β → Prog β (α × β)} {blk blk' : Nat → β}
    {held : List Nat} {a : α} {b : β} (hid : id ∉ held) (hcap : held.length < cap)
    (hbody : (f (blk id)).run cap ro ⟨blk, id :: held⟩ =
      some ((a, b), ⟨blk', id :: held⟩))
    (hro : ro = true → b = blk' id) :
    (withModify id f).run cap ro ⟨blk, held⟩ =
      some (a, ⟨update blk' id b, held⟩) := by
  refine run_acquire_iff.mpr ⟨hid, hcap, run_load_iff.mpr ⟨mem_cons_self, ?_⟩⟩
  rw [run_bind_some hbody, run_store_iff]
  exact ⟨mem_cons_self, hro, by simp⟩

theorem run_of_readOnly {p : Prog β α} {v : View β} {r : α × View β}
    (h : p.run cap true v = some r) : p.run cap false v = some r := by
  induction p generalizing v with
  | ret a => exact h
  | panic => exact h
  | acquire id k ih =>
    exact run_acquire_iff.mpr ((run_acquire_iff.mp h).imp_right (And.imp_right ih))
  | release id k ih => exact run_release_iff.mpr ((run_release_iff.mp h).imp_right ih)
  | load id k ih => exact run_load_iff.mpr ((run_load_iff.mp h).imp_right (ih _))
  | store id b k ih =>
    obtain ⟨hid, -, h⟩ := run_store_iff.mp h
    exact run_store_iff.mpr ⟨hid, nofun, ih h⟩
  | syncAll k ih => exact run_syncAll_iff.mpr ((run_syncAll_iff.mp h).imp_right ih)

theorem run_mono {cap' : Nat} (hle : cap ≤ cap') {p : Prog β α} {v : View β} {r : α × View β}
    (h : p.run cap ro v = some r) : p.run cap' ro v = some r := by
  induction p generalizing v with
  | ret a => exact h
  | panic => exact h
  | acquire id k ih =>
    obtain ⟨hid, hcap, h⟩ := run_acquire_iff.mp h
    exact run_acquire_iff.mpr ⟨hid, Nat.lt_of_lt_of_le hcap hle, ih h⟩
  | release id k ih => exact run_release_iff.mpr ((run_release_iff.mp h).imp_right ih)
  | load id k ih => exact run_load_iff.mpr ((run_load_iff.mp h).imp_right (ih _))
  | store id b k ih => exact run_store_iff.mpr ((run_store_iff.mp h).imp_right (And.imp_right ih))
  | syncAll k ih => exact run_syncAll_iff.mpr ((run_syncAll_iff.mp h).imp_right ih)

end Run

/-! ## Failing runs -/

/-- The run comes to `panic` or to a block that it holds already, with every request before
that allowed. -/
def Fails (cap : Nat) : Prog β α → View β → Prop
  | ret _, _ => False
  | panic, _ => True
  | acquire id k, v =>
      id ∈ v.held ∨ v.held.length < cap ∧ Fails cap k { v with held := id :: v.held }
  | release id k, v => id ∈ v.held ∧ Fails cap k { v with held := v.held.erase id }
  | load id k, v => id ∈ v.held ∧ Fails cap (k (v.blk id)) v
  | store id b k, v => id ∈ v.held ∧ Fails cap k { v with blk := Function.update v.blk id b }
  | syncAll k, v => v.held = [] ∧ Fails cap k v

section Fails

variable {cap : Nat} {v : View β}

theorem fails_acquire_iff {id : Nat} {k : Prog β α} : (acquire id k).Fails cap v ↔
    id ∈ v.held ∨ v.held.length < cap ∧ k.Fails cap { v with held := id :: v.held } := Iff.rfl

theorem fails_release_iff {id : Nat} {k : Prog β α} : (release id k).Fails cap v ↔
    id ∈ v.held ∧ k.Fails cap { v with held := v.held.erase id } := Iff.rfl

theorem fails_load_iff {id : Nat} {k : β → Prog β α} : (load id k).Fails cap v ↔
    id ∈ v.held ∧ (k (v.blk id)).Fails cap v := Iff.rfl

theorem fails_store_iff {id : Nat} {b : β} {k : Prog β α} : (store id b k).Fails cap v ↔
    id ∈ v.held ∧ k.Fails cap { v with blk := update v.blk id b } := Iff.rfl

theorem fails_syncAll_iff {k : Prog β α} : (syncAll k).Fails cap v ↔
    v.held = [] ∧ k.Fails cap v := Iff.rfl

theorem fails_bind_left {p : Prog β α} (h : p.Fails cap v) (f : α → Prog β γ) :
    (p >>= f).Fails cap v := by
  change (p.bind f).Fails cap v
  induction p generalizing v with
  | ret a => exact h.elim
  | panic => trivial
  | acquire id k ih => exact h.imp_right fun h => ⟨h.1, ih h.2⟩
  | release id k ih | store id b k ih | syncAll k ih => exact ⟨h.1, ih h.2⟩
  | load id k ih => exact ⟨h.1, ih _ h.2⟩

theorem fails_bind_right [DecidableEq β] {ro : Bool} {p : Prog β α} {f : α → Prog β γ}
    {v' : View β} {a : α} (hp : p.run cap ro v = some (a, v')) (hf : (f a).Fails cap v') :
    (p >>= f).Fails cap v := by
  change (p.bind f).Fails cap v
  induction p generalizing v with
  | ret b =>
    cases hp
    exact hf
  | panic => cases hp
  | acquire id k ih =>
    obtain ⟨hid, hcap, hp⟩ := run_acquire_iff.mp hp
    exact Or.inr ⟨hcap, ih hp⟩
  | release id k ih => exact (run_release_iff.mp hp).imp_right ih
  | load id k ih => exact (run_load_iff.mp hp).imp_right (ih _)
  | store id b k ih =>
    obtain ⟨hid, -, hp⟩ := run_store_iff.mp hp
    exact ⟨hid, ih hp⟩
  | syncAll k ih => exact (run_syncAll_iff.mp hp).imp_right ih

theorem fails_check_false : (check false : Prog β Unit).Fails cap v := trivial

variable {id : Nat} {blk : Nat → β} {held : List Nat}

theorem fails_withRead_held {f : β → Prog β α} (hid : id ∈ held) :
    (withRead id f).Fails cap ⟨blk, held⟩ := Or.inl hid

theorem fails_withRead {f : β → Prog β α} (hcap : held.length < cap)
    (hbody : (f (blk id)).Fails cap ⟨blk, id :: held⟩) :
    (withRead id f).Fails cap ⟨blk, held⟩ :=
  Or.inr ⟨hcap, mem_cons_self, fails_bind_left hbody _⟩

theorem fails_withModify_held {f : β → Prog β (α × β)} (hid : id ∈ held) :
    (withModify id f).Fails cap ⟨blk, held⟩ := Or.inl hid

theorem fails_withModify {f : β → Prog β (α × β)} (hcap : held.length < cap)
    (hbody : (f (blk id)).Fails cap ⟨blk, id :: held⟩) :
    (withModify id f).Fails cap ⟨blk, held⟩ :=
  Or.inr ⟨hcap, mem_cons_self, fails_bind_left hbody _⟩

end Fails

/-! ## Runs that stop at a panic -/

/-- The run comes to `panic`, with every request before that allowed. -/
def Panics (cap : Nat) : Prog β α → View β → Prop
  | ret _, _ => False
  | panic, _ => True
  | acquire id k, v =>
      id ∉ v.held ∧ v.held.length < cap ∧ Panics cap k { v with held := id :: v.held }
  | release id k, v => id ∈ v.held ∧ Panics cap k { v with held := v.held.erase id }
  | load id k, v => id ∈ v.held ∧ Panics cap (k (v.blk id)) v
  | store id b k, v => id ∈ v.held ∧ Panics cap k { v with blk := Function.update v.blk id b }
  | syncAll k, v => v.held = [] ∧ Panics cap k v

section Panics

variable {cap : Nat} {v : View β}

theorem Panics.fails {p : Prog β α} (h : p.Panics cap v) : p.Fails cap v := by
  induction p generalizing v with
  | ret a => exact h.elim
  | panic => trivial
  | acquire id k ih => exact Or.inr ⟨h.2.1, ih h.2.2⟩
  | release id k ih | store id b k ih | syncAll k ih => exact ⟨h.1, ih h.2⟩
  | load id k ih => exact ⟨h.1, ih _ h.2⟩

theorem panics_bind_left {p : Prog β α} (h : p.Panics cap v) (f : α → Prog β γ) :
    (p >>= f).Panics cap v := by
  change (p.bind f).Panics cap v
  induction p generalizing v with
  | ret a => exact h.elim
  | panic => trivial
  | acquire id k ih => exact ⟨h.1, h.2.1, ih h.2.2⟩
  | release id k ih | store id b k ih | syncAll k ih => exact ⟨h.1, ih h.2⟩
  | load id k ih => exact ⟨h.1, ih _ h.2⟩

theorem panics_bind_right [DecidableEq β] {ro : Bool} {p : Prog β α} {f : α → Prog β γ}
    {v' : View β} {a : α} (hp : p.run cap ro v = some (a, v')) (hf : (f a).Panics cap v') :
    (p >>= f).Panics cap v := by
  change (p.bind f).Panics cap v
  induction p generalizing v with
  | ret b =>
    cases hp
    exact hf
  | panic => cases hp
  | acquire id k ih =>
    obtain ⟨hid, hcap, hp⟩ := run_acquire_iff.mp hp
    exact ⟨hid, hcap, ih hp⟩
  | release id k ih => exact (run_release_iff.mp hp).imp_right ih
  | load id k ih => exact (run_load_iff.mp hp).imp_right (ih _)
  | store id b k ih =>
    obtain ⟨hid, -, hp⟩ := run_store_iff.mp hp
    exact ⟨hid, ih hp⟩
  | syncAll k ih => exact (run_syncAll_iff.mp hp).imp_right ih

theorem panics_panic : (panic : Prog β α).Panics cap v := trivial

theorem panics_check_false : (check false : Prog β Unit).Panics cap v := trivial

theorem panics_check_bind {c : Bool} {f : Unit → Prog β α} (h : (f ()).Panics cap v) :
    (check c >>= f).Panics cap v := by
  cases c with
  | false => exact panics_bind_left panics_check_false f
  | true => exact h

variable {id : Nat} {blk : Nat → β} {held : List Nat}

theorem panics_withRead {f : β → Prog β α} (hid : id ∉ held) (hcap : held.length < cap)
    (hbody : (f (blk id)).Panics cap ⟨blk, id :: held⟩) :
    (withRead id f).Panics cap ⟨blk, held⟩ :=
  ⟨hid, hcap, mem_cons_self, panics_bind_left hbody _⟩

theorem panics_withModify {f : β → Prog β (α × β)} (hid : id ∉ held) (hcap : held.length < cap)
    (hbody : (f (blk id)).Panics cap ⟨blk, id :: held⟩) :
    (withModify id f).Panics cap ⟨blk, held⟩ :=
  ⟨hid, hcap, mem_cons_self, panics_bind_left hbody _⟩

end Panics

/-! ## Programs that only look -/

/-- The program returns and changes no block, or it panics; it does not come to a block that
it holds. -/
def Stops [DecidableEq β] (cap : Nat) (p : Prog β α) (v : View β) : Prop :=
  (∃ a, p.run cap true v = some (a, v)) ∨ p.Panics cap v

section Stops

variable [DecidableEq β] {cap : Nat} {v : View β}

theorem stops_pure (a : α) : (pure a : Prog β α).Stops cap v := Or.inl ⟨a, rfl⟩

theorem stops_unwrap (o : Option α) : (unwrap o : Prog β α).Stops cap v := by
  cases o with
  | none => exact Or.inr panics_panic
  | some a => exact Or.inl ⟨a, rfl⟩

theorem stops_check (c : Bool) : (check c : Prog β Unit).Stops cap v := by
  cases c with
  | false => exact Or.inr panics_check_false
  | true => exact Or.inl ⟨(), rfl⟩

theorem stops_bind {p : Prog β α} {f : α → Prog β γ} (hp : p.Stops cap v)
    (hf : ∀ a, (f a).Stops cap v) : (p >>= f).Stops cap v := by
  rcases hp with ⟨a, hrun⟩ | hpanic
  · rcases hf a with ⟨c, hrun'⟩ | hpanic
    · exact Or.inl ⟨c, (run_bind_some hrun).trans hrun'⟩
    · exact Or.inr (panics_bind_right hrun hpanic)
  · exact Or.inr (panics_bind_left hpanic f)

end Stops

/-- The program returns and changes no block, or it fails. -/
def Settles [DecidableEq β] (cap : Nat) (p : Prog β α) (v : View β) : Prop :=
  (∃ a, p.run cap true v = some (a, v)) ∨ p.Fails cap v

section Settles

variable [DecidableEq β] {cap : Nat} {v : View β}

theorem Stops.settles {p : Prog β α} (h : p.Stops cap v) : p.Settles cap v :=
  h.imp_right Panics.fails

theorem settles_pure (a : α) : (pure a : Prog β α).Settles cap v := Or.inl ⟨a, rfl⟩

theorem settles_check (c : Bool) : (check c : Prog β Unit).Settles cap v := by
  cases c with
  | false => exact Or.inr fails_check_false
  | true => exact Or.inl ⟨(), rfl⟩

theorem settles_bind {p : Prog β α} {f : α → Prog β γ} (hp : p.Settles cap v)
    (hf : ∀ a, (f a).Settles cap v) : (p >>= f).Settles cap v := by
  rcases hp with ⟨a, hrun⟩ | hfail
  · rcases hf a with ⟨c, hrun'⟩ | hfail
    · exact Or.inl ⟨c, (run_bind_some hrun).trans hrun'⟩
    · exact Or.inr (fails_bind_right hrun hfail)
  · exact Or.inr (fails_bind_left hfail f)

theorem settles_withRead {id : Nat} {f : β → Prog β α} {blk : Nat → β} {held : List Nat}
    (hcap : held.length < cap) (hbody : (f (blk id)).Settles cap ⟨blk, id :: held⟩) :
    (withRead id f).Settles cap ⟨blk, held⟩ := by
  by_cases hid : id ∈ held
  · exact Or.inr (fails_withRead_held hid)
  · rcases hbody with ⟨a, hrun⟩ | hfail
    · exact Or.inl ⟨a, run_withRead hid hcap hrun⟩
    · exact Or.inr (fails_withRead hcap hfail)

theorem settles_withModify {id : Nat} {g : β → α × β} {blk : Nat → β} {held : List Nat}
    (hcap : held.length < cap) (hsame : (g (blk id)).2 = blk id) :
    (withModify id fun b => pure (g b)).Settles cap ⟨blk, held⟩ := by
  by_cases hid : id ∈ held
  · exact Or.inr (fails_withModify_held hid)
  · have hrun : (withModify id fun b => pure (g b)).run cap true ⟨blk, held⟩ =
        some ((g (blk id)).1, ⟨update blk id (g (blk id)).2, held⟩) :=
      run_withModify hid hcap rfl fun _ => hsame
    rw [hsame, update_eq_self] at hrun
    exact Or.inl ⟨_, hrun⟩

end Settles

/-! ## What a program can return -/

/-- Every value that the program returns satisfies `Q`, whatever the blocks hold. -/
def Returns (Q : α → Prop) : Prog β α → Prop
  | ret a => Q a
  | panic => True
  | acquire _ k => Returns Q k
  | release _ k => Returns Q k
  | load _ k => ∀ b, Returns Q (k b)
  | store _ _ k => Returns Q k
  | syncAll k => Returns Q k

section Returns

variable {P : α → Prop} {Q : γ → Prop}

theorem returns_pure {a : α} (h : P a) : (pure a : Prog β α).Returns P := h

theorem returns_check (c : Bool) : (check c : Prog β Unit).Returns fun _ => c = true := by
  cases c with
  | false => trivial
  | true => exact returns_pure rfl

theorem returns_bind {p : Prog β α} {f : α → Prog β γ} (hp : p.Returns P)
    (hf : ∀ a, P a → (f a).Returns Q) : (p >>= f).Returns Q := by
  change (p.bind f).Returns Q
  induction p with
  | ret a => exact hf a hp
  | panic => trivial
  | acquire id k ih | release id k ih | store id b k ih | syncAll k ih => exact ih hp
  | load id k ih => exact fun b => ih b (hp b)

theorem Returns.mono {P' : α → Prop} {p : Prog β α} (h : p.Returns P) (himp : ∀ a, P a → P' a) :
    p.Returns P' := by
  induction p with
  | ret a => exact himp a h
  | panic => trivial
  | acquire id k ih | release id k ih | store id b k ih | syncAll k ih => exact ih h
  | load id k ih => exact fun b => ih b (h b)

theorem returns_any (p : Prog β α) : p.Returns fun _ => True := by
  induction p with
  | ret a => trivial
  | panic => trivial
  | acquire id k ih | release id k ih | store id b k ih | syncAll k ih => exact ih
  | load id k ih => exact ih

end Returns

end Prog

/-! ## Backends -/

/-- A concrete implementation of the requests of a program on states `σ`. -/
structure Backend (β σ : Type) where
  acquire : Nat → σ → Option σ
  release : Nat → σ → Option σ
  load : Nat → σ → Option β
  store : Nat → β → σ → Option σ
  syncAll : σ → Option σ

namespace Prog

variable {β α γ σ : Type}

/-- Execute a program on a backend. -/
def exec (B : Backend β σ) : Prog β α → σ → Option (α × σ)
  | ret a, s => some (a, s)
  | panic, _ => none
  | acquire id k, s => (B.acquire id s).bind (exec B k)
  | release id k, s => (B.release id s).bind (exec B k)
  | load id k, s => (B.load id s).bind fun b => exec B (k b) s
  | store id b k, s => (B.store id b s).bind (exec B k)
  | syncAll k, s => (B.syncAll s).bind (exec B k)

theorem exec_bind (B : Backend β σ) (p : Prog β α) (f : α → Prog β γ) (s : σ) :
    (p >>= f).exec B s = (p.exec B s).bind fun r => (f r.1).exec B r.2 := by
  change (p.bind f).exec B s = _
  induction p generalizing s with
  | ret a => rfl
  | panic => rfl
  | acquire id k ih | release id k ih | store id b k ih | syncAll k ih =>
    exact (congrArg (Option.bind _) (funext ih)).trans (Option.bind_assoc ..).symm
  | load id k ih =>
    exact (congrArg (Option.bind _) (funext fun b => ih b s)).trans (Option.bind_assoc ..).symm

theorem Returns.of_exec {B : Backend β σ} {p : Prog β α} {P : α → Prop} (h : p.Returns P) {s : σ}
    {r : α × σ} (hexec : p.exec B s = some r) : P r.1 := by
  induction p generalizing s with
  | ret a =>
    cases hexec
    exact h
  | panic => cases hexec
  | acquire id k ih | release id k ih | store id b k ih | syncAll k ih =>
    obtain ⟨s', -, hexec⟩ := bind_eq_some_iff.mp hexec
    exact ih h hexec
  | load id k ih =>
    obtain ⟨b, -, hexec⟩ := bind_eq_some_iff.mp hexec
    exact ih b (h b) hexec

/-- Along the execution, whenever a block is requested, it is not one of those that the
program holds, at most `limit` are held afterwards, and the backend gives it out. -/
def Guarded (B : Backend β σ) (limit : Nat) : Prog β α → σ → List Nat → Prop
  | ret _, _, _ => True
  | panic, _, _ => True
  | acquire id k, s, held => id ∉ held ∧ held.length + 1 ≤ limit ∧
      ∃ s', B.acquire id s = some s' ∧ Guarded B limit k s' (id :: held)
  | release id k, s, held => ∃ s', B.release id s = some s' ∧ Guarded B limit k s' (held.erase id)
  | load id k, s, held => ∃ b, B.load id s = some b ∧ Guarded B limit (k b) s held
  | store id b k, s, held => ∃ s', B.store id b s = some s' ∧ Guarded B limit k s' held
  | syncAll k, s, held => ∃ s', B.syncAll s = some s' ∧ Guarded B limit k s' held

end Prog

/-- `R` relates backend states to plain stores so that every request the plain
store allows is carried out by the backend, and a block that is held is not given out
again.  `clean` is a property of backend states that only a changing store may break and
that `syncAll` establishes. -/
structure Simulation {β σ : Type} (B : Backend β σ) (cap : Nat)
    (R : σ → View β → Prop) (clean : σ → Prop) : Prop where
  acquire : ∀ {s v id}, R s v → id ∉ v.held → v.held.length < cap →
    ∃ s', B.acquire id s = some s' ∧ R s' { v with held := id :: v.held } ∧
      (clean s → clean s')
  acquire_held : ∀ {s v id}, R s v → id ∈ v.held → B.acquire id s = none
  release : ∀ {s v id}, R s v → id ∈ v.held →
    ∃ s', B.release id s = some s' ∧ R s' { v with held := v.held.erase id } ∧
      (clean s → clean s')
  load : ∀ {s v id}, R s v → id ∈ v.held → B.load id s = some (v.blk id)
  store : ∀ {s v id b}, R s v → id ∈ v.held →
    ∃ s', B.store id b s = some s' ∧
      R s' { v with blk := Function.update v.blk id b } ∧
      (b = v.blk id → clean s → clean s')
  syncAll : ∀ {s v}, R s v → v.held = [] →
    ∃ s', B.syncAll s = some s' ∧ R s' v ∧ clean s'

namespace Simulation

variable {β σ α γ : Type} [DecidableEq β] {B : Backend β σ} {cap : Nat}
  {R : σ → View β → Prop} {clean : σ → Prop}

/-- Every run on the plain store is an execution of the backend with the same
result; a run that changes no block keeps a clean backend clean. -/
theorem exec_of_run (hsim : Simulation B cap R clean) {ro : Bool} {p : Prog β α}
    {s : σ} {v v' : View β} {a : α} (hR : R s v)
    (hrun : p.run cap ro v = some (a, v')) :
    ∃ s', p.exec B s = some (a, s') ∧ R s' v' ∧ (ro = true → clean s → clean s') := by
  induction p generalizing s v with
  | ret b =>
    cases hrun
    exact ⟨s, rfl, hR, fun _ h => h⟩
  | panic => cases hrun
  | acquire id k ih =>
    obtain ⟨hid, hcap, hrun⟩ := Prog.run_acquire_iff.mp hrun
    obtain ⟨s₁, hs₁, hR₁, hcl₁⟩ := hsim.acquire hR hid hcap
    obtain ⟨s', hs', hR', hcl'⟩ := ih hR₁ hrun
    rw [Prog.exec, hs₁]
    exact ⟨s', hs', hR', fun hro h => hcl' hro (hcl₁ h)⟩
  | release id k ih =>
    obtain ⟨hid, hrun⟩ := Prog.run_release_iff.mp hrun
    obtain ⟨s₁, hs₁, hR₁, hcl₁⟩ := hsim.release hR hid
    obtain ⟨s', hs', hR', hcl'⟩ := ih hR₁ hrun
    rw [Prog.exec, hs₁]
    exact ⟨s', hs', hR', fun hro h => hcl' hro (hcl₁ h)⟩
  | load id k ih =>
    obtain ⟨hid, hrun⟩ := Prog.run_load_iff.mp hrun
    rw [Prog.exec, hsim.load hR hid]
    exact ih (v.blk id) hR hrun
  | store id b k ih =>
    obtain ⟨hid, hsame, hrun⟩ := Prog.run_store_iff.mp hrun
    obtain ⟨s₁, hs₁, hR₁, hcl₁⟩ := hsim.store (b := b) hR hid
    obtain ⟨s', hs', hR', hcl'⟩ := ih hR₁ hrun
    rw [Prog.exec, hs₁]
    exact ⟨s', hs', hR', fun hro h => hcl' hro (hcl₁ (hsame hro) h)⟩
  | syncAll k ih =>
    obtain ⟨hheld, hrun⟩ := Prog.run_syncAll_iff.mp hrun
    obtain ⟨s₁, hs₁, hR₁, hcl₁⟩ := hsim.syncAll hR hheld
    obtain ⟨s', hs', hR', hcl'⟩ := ih hR₁ hrun
    rw [Prog.exec, hs₁]
    exact ⟨s', hs', hR', fun hro _ => hcl' hro hcl₁⟩

/-- What the plain store allows with fewer blocks held at once is guarded. -/
theorem guarded_of_run (hsim : Simulation B cap R clean) {limit : Nat} (hlimit : limit ≤ cap)
    {ro : Bool} {p : Prog β α} {s : σ} {v : View β} {r : α × View β} (hR : R s v)
    (hrun : p.run limit ro v = some r) : p.Guarded B limit s v.held := by
  induction p generalizing s v with
  | ret a => trivial
  | panic => trivial
  | acquire id k ih =>
    obtain ⟨hid, hcap, hrun⟩ := Prog.run_acquire_iff.mp hrun
    obtain ⟨s', hs', hR', -⟩ := hsim.acquire hR hid (Nat.lt_of_lt_of_le hcap hlimit)
    exact ⟨hid, hcap, s', hs', ih hR' hrun⟩
  | release id k ih =>
    obtain ⟨hid, hrun⟩ := Prog.run_release_iff.mp hrun
    obtain ⟨s', hs', hR', -⟩ := hsim.release hR hid
    exact ⟨s', hs', ih hR' hrun⟩
  | load id k ih =>
    obtain ⟨hid, hrun⟩ := Prog.run_load_iff.mp hrun
    exact ⟨v.blk id, hsim.load hR hid, ih _ hR hrun⟩
  | store id b k ih =>
    obtain ⟨hid, -, hrun⟩ := Prog.run_store_iff.mp hrun
    obtain ⟨s', hs', hR', -⟩ := hsim.store (b := b) hR hid
    have hk := ih hR' hrun
    exact ⟨s', hs', hk⟩
  | syncAll k ih =>
    obtain ⟨hheld, hrun⟩ := Prog.run_syncAll_iff.mp hrun
    obtain ⟨s', hs', hR', -⟩ := hsim.syncAll hR hheld
    exact ⟨s', hs', ih hR' hrun⟩

omit [DecidableEq β] in
theorem guarded_of_panics (hsim : Simulation B cap R clean) {limit : Nat} (hlimit : limit ≤ cap)
    {p : Prog β α} {s : σ} {v : View β} (hR : R s v) (h : p.Panics limit v) :
    p.Guarded B limit s v.held := by
  induction p generalizing s v with
  | ret a => trivial
  | panic => trivial
  | acquire id k ih =>
    obtain ⟨hid, hcap, hk⟩ := h
    obtain ⟨s', hs', hR', -⟩ := hsim.acquire hR hid (Nat.lt_of_lt_of_le hcap hlimit)
    exact ⟨hid, hcap, s', hs', ih hR' hk⟩
  | release id k ih =>
    obtain ⟨s', hs', hR', -⟩ := hsim.release hR h.1
    exact ⟨s', hs', ih hR' h.2⟩
  | load id k ih => exact ⟨v.blk id, hsim.load hR h.1, ih _ hR h.2⟩
  | store id b k ih =>
    obtain ⟨s', hs', hR', -⟩ := hsim.store (b := b) hR h.1
    have hk := ih hR' h.2
    exact ⟨s', hs', hk⟩
  | syncAll k ih =>
    obtain ⟨s', hs', hR', -⟩ := hsim.syncAll hR h.1
    exact ⟨s', hs', ih hR' h.2⟩

omit [DecidableEq β] in
theorem exec_eq_none (hsim : Simulation B cap R clean) {p : Prog β α} {s : σ} {v : View β}
    (hR : R s v) (h : p.Fails cap v) : p.exec B s = none := by
  induction p generalizing s v with
  | ret a => exact h.elim
  | panic => rfl
  | acquire id k ih =>
    by_cases hid : id ∈ v.held
    · rw [Prog.exec, hsim.acquire_held hR hid]
      rfl
    · obtain ⟨hcap, hk⟩ := h.resolve_left hid
      obtain ⟨s₁, hs₁, hR₁, -⟩ := hsim.acquire hR hid hcap
      rw [Prog.exec, hs₁]
      exact ih hR₁ hk
  | release id k ih =>
    obtain ⟨s₁, hs₁, hR₁, -⟩ := hsim.release hR h.1
    rw [Prog.exec, hs₁]
    exact ih hR₁ h.2
  | load id k ih =>
    rw [Prog.exec, hsim.load hR h.1]
    exact ih _ hR h.2
  | store id b k ih =>
    obtain ⟨s₁, hs₁, hR₁, -⟩ := hsim.store (b := b) hR h.1
    rw [Prog.exec, hs₁]
    exact ih hR₁ h.2
  | syncAll k ih =>
    obtain ⟨s₁, hs₁, hR₁, -⟩ := hsim.syncAll hR h.1
    rw [Prog.exec, hs₁]
    exact ih hR₁ h.2

omit [DecidableEq β] in
theorem of_exec_withModify (hsim : Simulation B cap R clean) {s : σ} {v : View β} (hR : R s v)
    {id : Nat} (hid : id ∉ v.held) (hcap : v.held.length < cap) {f : β → Prog β (α × β)}
    {P : α → Prop} (hf : (f (v.blk id)).Returns fun r => P r.1) {r : α × σ}
    (hexec : (Prog.withModify id f).exec B s = some r) : P r.1 := by
  obtain ⟨s₁, hs₁, hR₁, -⟩ := hsim.acquire hR hid hcap
  have hload := hsim.load hR₁ (mem_cons_self : id ∈ id :: v.held)
  have hbody : ((f (v.blk id)) >>= fun r => Prog.store id r.2 (.release id (.ret r.1))).Returns P :=
    Prog.returns_bind hf fun _ ha => ha
  rw [Prog.withModify, Prog.exec, hs₁, bind_some, Prog.exec, hload, bind_some] at hexec
  exact hbody.of_exec hexec

/-- A program that ends with `syncAll` leaves the backend clean. -/
theorem exec_syncAll_clean (hsim : Simulation B cap R clean) {ro : Bool}
    {p : Prog β α} {f : α → γ} {s : σ} {v v' : View β} {a : α} (hR : R s v)
    (hrun : p.run cap ro v = some (a, v')) (hheld : v'.held = []) :
    ∃ s', (p >>= fun a => .syncAll (.ret (f a))).exec B s = some (f a, s') ∧
      R s' v' ∧ clean s' := by
  obtain ⟨s₁, hs₁, hR₁, -⟩ := hsim.exec_of_run hR hrun
  obtain ⟨s₂, hs₂, hR₂, hcl₂⟩ := hsim.syncAll hR₁ hheld
  refine ⟨s₂, ?_, hR₂, hcl₂⟩
  rw [Prog.exec_bind, hs₁]
  simp [Prog.exec, hs₂]

end Simulation

-- these are derived from those of the parts, never computed
attribute [irreducible] Prog.Fails Prog.Panics Prog.Returns

end RCore.Lib.LockedStore
