import RCore.Lib.LockedStore

/-!
# Which blocks a program requests

`Prog.requests` lists the blocks that an execution on a backend asks for.  The plain store is
itself a backend, `plain`, and a backend that simulates it is asked for the same blocks
(`Simulation.requests_eq`).
-/

namespace RCore.Lib.LockedStore

open List Option Prog

variable {β σ α γ : Type}

/-- The blocks that the execution requests, in order.  It ends with a request that is refused. -/
def Prog.requests (B : Backend β σ) : Prog β α → σ → List Nat
  | .ret _, _ => []
  | .panic, _ => []
  | .acquire id k, s => id :: (B.acquire id s).elim [] (requests B k)
  | .release id k, s => (B.release id s).elim [] (requests B k)
  | .load id k, s => (B.load id s).elim [] fun b => requests B (k b) s
  | .store id b k, s => (B.store id b s).elim [] (requests B k)
  | .syncAll k, s => (B.syncAll s).elim [] (requests B k)

/-- The plain store, of which at most `cap` blocks are held at once. -/
def plain (β : Type) (cap : Nat) : Backend β (View β) where
  acquire id v :=
    if id ∈ v.held ∨ cap ≤ v.held.length then none else some { v with held := id :: v.held }
  release id v := if id ∈ v.held then some { v with held := v.held.erase id } else none
  load id v := if id ∈ v.held then some (v.blk id) else none
  store id b v := if id ∈ v.held then some { v with blk := Function.update v.blk id b } else none
  syncAll v := if v.held = [] then some v else none

variable {B : Backend β σ} {p : Prog β α} {f : α → Prog β γ}

namespace Prog

/-! ## Requests of composed programs -/

theorem requests_bind_some {s s' : σ} {a : α} (h : p.exec B s = some (a, s')) :
    (p >>= f).requests B s = p.requests B s ++ (f a).requests B s' := by
  change (p.bind f).requests B s = _
  induction p generalizing s with
  | ret b =>
    cases h
    rfl
  | panic => cases h
  | acquire id k ih | release id k ih | store id b k ih | syncAll k ih =>
    obtain ⟨s₁, hs₁, hk⟩ := bind_eq_some_iff.mp h
    simp only [bind, requests, hs₁, elim_some, ih hk, cons_append]
  | load id k ih =>
    obtain ⟨b, hb, hk⟩ := bind_eq_some_iff.mp h
    simp only [bind, requests, hb, elim_some, ih b hk]

theorem mem_elim_mono {τ : Type} {o : Option τ} {g g' : τ → List Nat} {x : Nat}
    (hg : ∀ s, x ∈ g s → x ∈ g' s) (h : x ∈ o.elim [] g) : x ∈ o.elim [] g' := by
  cases o with
  | none => exact h
  | some s => exact hg s h

/-- What the first part requests is requested, whether or not it returns. -/
theorem mem_requests_bind (f : α → Prog β γ) {s : σ} {x : Nat} (h : x ∈ p.requests B s) :
    x ∈ (p >>= f).requests B s := by
  change x ∈ (p.bind f).requests B s
  induction p generalizing s with
  | ret a | panic => cases h
  | acquire id k ih =>
    exact mem_cons.mpr ((mem_cons.mp h).imp_right (mem_elim_mono fun _ => ih))
  | release id k ih | store id b k ih | syncAll k ih => exact mem_elim_mono (fun _ => ih) h
  | load id k ih => exact mem_elim_mono (fun b => ih b) h

/-- A continuation that requests nothing. -/
theorem requests_bind_of_nil (p : Prog β α) (s : σ) (h : ∀ a s', (f a).requests B s' = []) :
    (p >>= f).requests B s = p.requests B s := by
  change (p.bind f).requests B s = _
  induction p generalizing s with
  | ret a => exact h a s
  | panic => rfl
  | acquire id k ih =>
    exact congrArg (fun g => id :: Option.elim (B.acquire id s) [] g) (funext ih)
  | release id k ih | store id b k ih | syncAll k ih =>
    exact congrArg (Option.elim _ []) (funext ih)
  | load id k ih => exact congrArg (Option.elim _ []) (funext fun b => ih b s)

/-! ## On the plain store -/

section Plain

variable {cap : Nat} {blk : Nat → β} {held : List Nat} {id : Nat}

theorem exec_plain [DecidableEq β] (p : Prog β α) (v : View β) :
    p.exec (plain β cap) v = p.run cap false v := by
  induction p generalizing v with
  | ret a => rfl
  | panic => rfl
  | acquire id k ih | release id k ih | syncAll k ih =>
    simp only [exec, plain, run]
    split
    · first | rfl | exact ih _
    · first | rfl | exact ih _
  | load id k ih =>
    simp only [exec, plain, run]
    split
    · exact ih _ _
    · rfl
  | store id b k ih =>
    simp only [exec, plain, run, Bool.false_eq_true, false_implies, and_true]
    split
    · exact ih _
    · rfl

theorem requests_bind_run [DecidableEq β] {ro : Bool} {v v' : View β} {a : α}
    (h : p.run cap ro v = some (a, v')) :
    (p >>= f).requests (plain β cap) v =
      p.requests (plain β cap) v ++ (f a).requests (plain β cap) v' := by
  apply requests_bind_some
  rw [exec_plain]
  cases ro with
  | false => exact h
  | true => exact run_of_readOnly h

@[simp] theorem requests_pure (a : α) (v : View β) :
    (pure a : Prog β α).requests (plain β cap) v = [] := rfl

@[simp] theorem requests_check (c : Bool) (v : View β) :
    (check c : Prog β Unit).requests (plain β cap) v = [] := by
  cases c <;> rfl

theorem requests_check_true {f : Unit → Prog β α} (v : View β) :
    (check true >>= f).requests (plain β cap) v = (f ()).requests (plain β cap) v := rfl

theorem plain_acquire {v : View β} (hid : id ∉ v.held) (hcap : v.held.length < cap) :
    (plain β cap).acquire id v = some { v with held := id :: v.held } :=
  if_neg (not_or.mpr ⟨hid, Nat.not_le.mpr hcap⟩)

theorem plain_load {v : View β} (hid : id ∈ v.held) :
    (plain β cap).load id v = some (v.blk id) := if_pos hid

theorem requests_release (a : α) (v : View β) :
    (release id (ret a) : Prog β α).requests (plain β cap) v = [] := by
  simp only [requests]
  cases (plain β cap).release id v <;> rfl

theorem requests_withRead {f : β → Prog β α} (hid : id ∉ held) (hcap : held.length < cap) :
    (withRead id f).requests (plain β cap) ⟨blk, held⟩ =
      id :: (f (blk id)).requests (plain β cap) ⟨blk, id :: held⟩ := by
  rw [withRead, requests, plain_acquire hid hcap, elim_some, requests,
    plain_load mem_cons_self, elim_some]
  exact congrArg _ (requests_bind_of_nil _ _ requests_release)

theorem requests_withModify {f : β → Prog β (α × β)} (hid : id ∉ held) (hcap : held.length < cap) :
    (withModify id f).requests (plain β cap) ⟨blk, held⟩ =
      id :: (f (blk id)).requests (plain β cap) ⟨blk, id :: held⟩ := by
  have htail : ∀ (r : α × β) v, (store id r.2 (.release id (ret r.1)) : Prog β α).requests
      (plain β cap) v = [] := by
    intro r v
    rw [requests]
    cases (plain β cap).store id r.2 v with
    | none => rfl
    | some v' => exact requests_release r.1 v'
  rw [withModify, requests, plain_acquire hid hcap, elim_some, requests,
    plain_load mem_cons_self, elim_some]
  exact congrArg _ (requests_bind_of_nil _ _ htail)

theorem mem_requests_withRead {f : β → Prog β α} (v : View β) :
    id ∈ (withRead id f).requests (plain β cap) v := mem_cons_self

theorem mem_requests_withModify {f : β → Prog β (α × β)} (v : View β) :
    id ∈ (withModify id f).requests (plain β cap) v := mem_cons_self

end Plain

end Prog

/-! ## On a backend -/

/-- A backend that simulates the plain store is asked for the same blocks, by a program that
returns or fails there. -/
theorem Simulation.requests_eq [DecidableEq β] {cap : Nat} {R : σ → View β → Prop}
    {clean : σ → Prop} (hsim : Simulation B cap R clean) {s : σ} {v : View β} (hR : R s v)
    (h : (∃ r, p.run cap false v = some r) ∨ p.Fails cap v) :
    p.requests B s = p.requests (plain β cap) v := by
  induction p generalizing s v with
  | ret a => rfl
  | panic => rfl
  | acquire id k ih =>
    rw [requests, requests]
    by_cases hid : id ∈ v.held
    · have hplain : (plain β cap).acquire id v = none := if_pos (Or.inl hid)
      rw [hsim.acquire_held hR hid, hplain]
      rfl
    · have hnext : v.held.length < cap ∧
          ((∃ r, k.run cap false { v with held := id :: v.held } = some r) ∨
            k.Fails cap { v with held := id :: v.held }) := by
        rcases h with ⟨r, hr⟩ | hfail
        · obtain ⟨-, hcap, hr⟩ := run_acquire_iff.mp hr
          exact ⟨hcap, Or.inl ⟨r, hr⟩⟩
        · exact ((fails_acquire_iff.mp hfail).resolve_left hid).imp_right Or.inr
      obtain ⟨s', hs', hR', -⟩ := hsim.acquire hR hid hnext.1
      rw [hs', plain_acquire hid hnext.1, elim_some, elim_some, ih hR' hnext.2]
  | release id k ih =>
    have hnext : id ∈ v.held ∧ ((∃ r, k.run cap false { v with held := v.held.erase id } = some r) ∨
          k.Fails cap { v with held := v.held.erase id }) := by
      rcases h with ⟨r, hr⟩ | hfail
      · exact (run_release_iff.mp hr).imp_right fun hr => Or.inl ⟨r, hr⟩
      · exact (fails_release_iff.mp hfail).imp_right Or.inr
    obtain ⟨s', hs', hR', -⟩ := hsim.release hR hnext.1
    have hplain : (plain β cap).release id v = some { v with held := v.held.erase id } :=
      if_pos hnext.1
    rw [requests, requests, hs', hplain, elim_some, elim_some, ih hR' hnext.2]
  | load id k ih =>
    have hnext : id ∈ v.held ∧
        ((∃ r, (k (v.blk id)).run cap false v = some r) ∨ (k (v.blk id)).Fails cap v) := by
      rcases h with ⟨r, hr⟩ | hfail
      · exact (run_load_iff.mp hr).imp_right fun hr => Or.inl ⟨r, hr⟩
      · exact (fails_load_iff.mp hfail).imp_right Or.inr
    rw [requests, requests, hsim.load hR hnext.1, plain_load hnext.1,
      elim_some, elim_some, ih _ hR hnext.2]
  | store id b k ih =>
    have hnext : id ∈ v.held ∧
        ((∃ r, k.run cap false { v with blk := Function.update v.blk id b } = some r) ∨
          k.Fails cap { v with blk := Function.update v.blk id b }) := by
      rcases h with ⟨r, hr⟩ | hfail
      · exact (run_store_iff.mp hr).imp_right fun hr => Or.inl ⟨r, hr.2⟩
      · exact (fails_store_iff.mp hfail).imp_right Or.inr
    obtain ⟨s', hs', hR', -⟩ := hsim.store (b := b) hR hnext.1
    have hplain : (plain β cap).store id b v =
        some { v with blk := Function.update v.blk id b } := if_pos hnext.1
    rw [requests, requests, hs', hplain, elim_some, elim_some, ih hR' hnext.2]
  | syncAll k ih =>
    have hnext : v.held = [] ∧ ((∃ r, k.run cap false v = some r) ∨ k.Fails cap v) := by
      rcases h with ⟨r, hr⟩ | hfail
      · exact (run_syncAll_iff.mp hr).imp_right fun hr => Or.inl ⟨r, hr⟩
      · exact (fails_syncAll_iff.mp hfail).imp_right Or.inr
    obtain ⟨s', hs', hR', -⟩ := hsim.syncAll hR hnext.1
    have hplain : (plain β cap).syncAll v = some v := if_pos hnext.1
    rw [requests, requests, hs', hplain, elim_some, elim_some, ih hR' hnext.2]

end RCore.Lib.LockedStore
