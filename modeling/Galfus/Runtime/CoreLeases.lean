import Galfus.Runtime.CoreInvariant

/-! # Leases of completions

Which future a notification completes: the one that holds its lease, just if the lease is
current.
-/

namespace Galfus.Core

variable {host : Host} {c c' : Core host}

/-- A notification completes the future that holds its lease just if the lease is current. -/
def LeaseSafe (before : List (Observation host)) : Observation host → Prop
  | .completed key cause current _ =>
    (cause.isChecked = true → current = true) ∧ ∀ lease, cause.lease? = some lease → Clean before →
        (leaseOf before key = some lease ↔ current = true)
  | _ => True

def LeasesOk (history : List (Observation host)) : Prop :=
  ∀ before o after, history = before ++ o :: after → LeaseSafe before o

theorem LeasesOk.append {hs l : List (Observation host)} (h : LeasesOk hs)
    (hl : ∀ b o a, l = b ++ o :: a → LeaseSafe (hs ++ b) o) :
    LeasesOk (hs ++ l) := by
  intro b o a heq
  rcases List.append_eq_append_iff.mp heq with ⟨m, rfl, hm⟩ | ⟨m, hm, ht⟩
  · exact hl m o a hm
  · cases m with
    | nil =>
      rw [List.append_nil] at hm
      subst hm
      have := hl [] o a ht.symm
      rwa [List.append_nil] at this
    | cons o' m =>
      cases ht
      exact h b o m hm

theorem LeasesOk.snoc {hs : List (Observation host)} {o : Observation host}
    (h : LeasesOk hs) (ho : LeaseSafe hs o) : LeasesOk (hs ++ [o]) := by
  refine h.append fun b o' a heq => ?_
  rcases b with _ | ⟨_, b⟩
  · cases heq
    rwa [List.append_nil]
  · simp at heq

theorem isCurrent_iff {cs : Cause} {l : Lease} (h : cs.lease? = some l) :
    c.isCurrent cs = true ↔ c.generations.lease l.id = l := by
  unfold isCurrent Generations.lease
  rw [h]
  cases l
  simp

theorem Outcome.leaseSafe (hok : c.Ok) {key : FutureKey} {cs : Cause} {r : host.Result}
    {o : Observation host} (h : Outcome c key cs r o)
    (hls : ∀ l, cs.lease? = some l → l.id = key.2)
    (hch : cs.isChecked = true → c.isCurrent cs = true)
    {b : List (Observation host)} (hcl : Clean b → Clean c.history)
    (hb : leaseOf b key = leaseOf c.history key) : LeaseSafe b o := by
  cases h with
  | missed => exact trivial
  | completed hh =>
    refine ⟨hch, fun l hl hc => ?_⟩
    rw [hb, (hok.futures (hcl hc)).lease key hh, isCurrent_iff hl, hls l hl, Option.some.injEq]

theorem LeasesOk.step (h : LeasesOk c.history) (hok : c.Ok) (hs : Step c c') :
    LeasesOk c'.history := by
  cases hs with
  | resolved ho _ hl hch =>
    exact h.snoc (ho.leaseSafe hok hl hch (fun hc => hc) rfl)
  | @served target mailbox message _ _ wait _ live first outcome _ _ _ _ _ _ _ ho _ =>
    rw [show c.history ++ [.sent target message true, .served target wait message live first,
      outcome] = (c.history ++ [.sent target message true, .served target wait message live first])
        ++ [outcome] by simp]
    refine .snoc ?_ (ho.leaseSafe hok (by rintro _ ⟨⟩; rfl) (by rintro ⟨⟩)
      .of_append (leaseOf_append (by simp) _))
    rw [show c.history ++ [.sent target message true, .served target wait message live first] =
      (c.history ++ [.sent target message true]) ++ [.served target wait message live first]
        by simp]
    refine .snoc (.snoc h ?_) ?_ <;> exact trivial
  | opened | received | kept | lost | created | registered | raced => exact h.snoc trivial
  | quiet | forget | refused | allocated | freed | unregistered | popped | cleared => exact h

end Galfus.Core
