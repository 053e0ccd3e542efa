import Galfus.Runtime.Kernel

/-! # The blocked threads

A timer that counts belongs to a blocked thread and is in the list of timers. When the clock
goes on, the threads whose timers are due wake up, each of them once.
-/

namespace Galfus

namespace TimerEntry

theorem compare_def (x y : TimerEntry) : compare x y = (compare x.deadlineMs y.deadlineMs).then
      ((compare x.timerId y.timerId).then (compare x.threadId y.threadId)) := by
  change instOrdTimerEntry.ord x y = _
  unfold instOrdTimerEntry.ord
  simp

theorem compare_eq_lt {x y : TimerEntry} :
    compare x y = .lt ↔ x.deadlineMs < y.deadlineMs ∨ x.deadlineMs = y.deadlineMs ∧
      (x.timerId < y.timerId ∨ x.timerId = y.timerId ∧ x.threadId < y.threadId) := by
  simp [compare_def, Ordering.then_eq_lt, Nat.compare_eq_lt]

theorem compare_lt_of_gt (x y : TimerEntry) (h : compare x y = .gt) : compare y x = .lt := by
  simp only [compare_def, Ordering.then_eq_gt, Nat.compare_eq_gt, Nat.compare_eq_eq] at h
  rw [compare_eq_lt]
  omega

theorem compare_lt_trans (x y z : TimerEntry) (h : compare x y = .lt) (h' : compare y z = .lt) :
    compare x z = .lt := by
  rw [compare_eq_lt] at h h' ⊢
  omega

end TimerEntry

inductive BlockedOp where
  | block (id : ℕ)
  | blockWithTimeout (id timeoutMs : ℕ)
  | unblock (id : ℕ)
  | remove (id : ℕ)
  | tick (deltaMs : ℕ)

namespace BlockedQueue

variable {timer : TimerEntry}

/-- The timers that count are those of blocked threads, and the entries of an ascending list. Each
of them has an id of its own. -/
structure ArmedIn (q : BlockedQueue) (timers : List TimerEntry) : Prop where
  lookup_iff : ∀ {id timer}, q.activeTimers.lookup id = some timer ↔
    timer ∈ timers ∧ timer.threadId = id
  mem_blocked : ∀ {id timer}, q.activeTimers.lookup id = some timer → id ∈ q.blocked
  sorted : timers.Pairwise (compare · · = .lt)
  timerIds : q.timerIds.Sound
  mem_ids : ∀ timer ∈ timers, timer.timerId ∈ q.timerIds.activeIds
  nodup_ids : (timers.map (·.timerId)).Nodup

def Sound (q : BlockedQueue) : Prop := q.ArmedIn q.timers

variable {q : BlockedQueue} {id : ℕ}

theorem sound_new : new.Sound := by
  constructor
  · intro id timer
    exact ⟨fun h => absurd h (by simp [new]), fun h => absurd h.1 List.not_mem_nil⟩
  · rintro id timer ⟨⟩
  · exact .nil
  · exact IdManager.sound_new 1
  · exact fun timer h => absurd h List.not_mem_nil
  · exact .nil

theorem ArmedIn.unique {ts : List TimerEntry} (h : q.ArmedIn ts) {x y : TimerEntry}
    (hx : x ∈ ts) (hy : y ∈ ts) (heq : x.threadId = y.threadId) : x = y :=
  Option.some.inj ((h.lookup_iff.mpr ⟨hx, heq⟩).symm.trans (h.lookup_iff.mpr ⟨hy, rfl⟩))

theorem Sound.lookup_eq_none (h : q.Sound) (hid : id ∉ q.blocked) :
    q.activeTimers.lookup id = none :=
  Option.eq_none_iff_forall_ne_some.mpr fun _ ht => hid (h.mem_blocked ht)

theorem blocked_removeTimer : (q.removeTimer id).2.blocked = q.blocked := by
  unfold removeTimer
  split <;> rfl

theorem fst_removeTimer (q : BlockedQueue) (id : ℕ) :
    (q.removeTimer id).1 = (q.activeTimers.lookup id).isSome := by
  unfold removeTimer
  split
  · next h => rw [h]; rfl
  · next h => rw [h]; rfl

theorem removeTimer_of_none (h : q.activeTimers.lookup id = none) :
    q.removeTimer id = (false, q) := by
  unfold removeTimer
  rw [h]

theorem lookup_removeTimer (k : ℕ) : (q.removeTimer id).2.activeTimers.lookup k =
      if k = id then none else q.activeTimers.lookup k := by
  unfold removeTimer
  split
  · exact Table.lookup_erase_eq _ _ _
  · next h =>
    split
    · next hk => rw [hk, h]
    · rfl

theorem size_removeTimer (q : BlockedQueue) (id : ℕ) :
    Table.size (q.removeTimer id).2.activeTimers + (q.removeTimer id).1.toNat =
      Table.size q.activeTimers := by
  unfold removeTimer
  split
  · next h => exact Table.size_erase_of_some h
  · rfl

theorem ArmedIn.erase {ts ts' : List TimerEntry} (h : q.ArmedIn ts)
    (htm : timer ∈ ts) (hsb : ts'.Sublist ts)
    (hmm : ∀ t, t ∈ ts' ↔ t ∈ ts ∧ t ≠ timer) {b : Finset ℕ}
    (hbl : ∀ id ∈ q.blocked, id ≠ timer.threadId → id ∈ b) (a : List TimerEntry) :
    ArmedIn { q with
      activeTimers := q.activeTimers.erase timer.threadId
      timers := a
      timerIds := q.timerIds.free timer.timerId
      blocked := b } ts' := by
  have hiff {id : ℕ} {t : TimerEntry} : (q.activeTimers.erase timer.threadId).lookup id = some t ↔
      id ≠ timer.threadId ∧ q.activeTimers.lookup id = some t := by
    rw [Table.lookup_erase_eq, Option.ite_none_left_eq_some]
  constructor
  · intro id t
    rw [hiff, hmm, h.lookup_iff]
    constructor
    · rintro ⟨hne, ht, rfl⟩
      exact ⟨⟨ht, fun heq => hne (congrArg _ heq)⟩, rfl⟩
    · rintro ⟨⟨ht, hne⟩, rfl⟩
      exact ⟨fun heq => hne (h.unique ht htm heq), ht, rfl⟩
  · intro id t ht
    obtain ⟨hne, ht⟩ := hiff.mp ht
    exact hbl id (h.mem_blocked ht) hne
  · exact h.sorted.sublist hsb
  · exact h.timerIds.free
  · intro t ht
    obtain ⟨ht, hne⟩ := (hmm t).mp ht
    rw [IdManager.activeIds_free]
    refine Finset.mem_erase.mpr ⟨fun heq => hne ?_, h.mem_ids t ht⟩
    exact List.inj_on_of_nodup_map h.nodup_ids ht htm heq
  · exact h.nodup_ids.sublist (hsb.map _)

/-- The timer of a thread goes; the thread may leave the blocked ones with it. -/
theorem Sound.removeTimer (h : q.Sound) {b : Finset ℕ} (hb : ∀ k ∈ q.blocked, k ≠ id → k ∈ b) :
    BlockedQueue.Sound { (q.removeTimer id).2 with blocked := b } := by
  unfold BlockedQueue.removeTimer
  split
  · next timer ht =>
    obtain ⟨hm, rfl⟩ := h.lookup_iff.mp ht
    exact h.erase hm List.filter_sublist (by simp) hb _
  · next hn =>
    refine { h with mem_blocked := fun {k t} hk => hb k (h.mem_blocked hk) ?_ }
    rintro rfl
    cases hn.symm.trans hk

theorem Sound.block (h : q.Sound) (id : ℕ) : (q.block id).2.Sound := by
  refine h.removeTimer fun k hk _ => ?_
  change k ∈ insert id (q.removeTimer id).2.blocked
  rw [blocked_removeTimer]
  exact Finset.mem_insert_of_mem hk

theorem Sound.unblock (h : q.Sound) (id : ℕ) : (q.unblock id).2.Sound := by
  refine h.removeTimer fun k hk hne => ?_
  change k ∈ (q.removeTimer id).2.blocked.erase id
  rw [blocked_removeTimer]
  exact Finset.mem_erase.mpr ⟨hne, hk⟩

theorem unblock_of_notMem (h : q.Sound) (hid : id ∉ q.blocked) :
    q.unblock id = ((false, false), q) := by
  unfold BlockedQueue.unblock
  rw [removeTimer_of_none (h.lookup_eq_none hid)]
  simp [hid]

theorem fst_unblock (q : BlockedQueue) (id : ℕ) :
    (q.unblock id).1 = (decide (id ∈ q.blocked), (q.activeTimers.lookup id).isSome) := by
  change (decide (id ∈ (q.removeTimer id).2.blocked), (q.removeTimer id).1) = _
  rw [blocked_removeTimer, fst_removeTimer]

theorem card_unblock (hid : id ∈ q.blocked) :
    (q.unblock id).2.blocked.card + 1 = q.blocked.card := by
  change ((q.removeTimer id).2.blocked.erase id).card + 1 = _
  rw [blocked_removeTimer, Finset.card_erase_add_one hid]

theorem size_unblock (q : BlockedQueue) (id : ℕ) :
    Table.size (q.unblock id).2.activeTimers + (q.activeTimers.lookup id).isSome.toNat =
      Table.size q.activeTimers := by
  rw [← fst_removeTimer]
  exact size_removeTimer q id

theorem timers_removeTimer_subset : (q.removeTimer id).2.timers ⊆ q.timers := by
  unfold removeTimer
  split
  · exact List.filter_subset_self _
  · exact List.Subset.refl _

theorem mem_activeIds_removeTimer (h : q.Sound) {n : ℕ} (hn : ∀ t ∈ q.timers, t.timerId ≠ n)
    (hm : n ∈ q.timerIds.activeIds) : n ∈ (q.removeTimer id).2.timerIds.activeIds := by
  unfold removeTimer
  split
  · next timer ht =>
    rw [IdManager.activeIds_free]
    exact Finset.mem_erase.mpr ⟨(hn timer (h.lookup_iff.mp ht).1).symm, hm⟩
  · exact hm

/-- A thread gets a timer with an id that no other timer has. -/
theorem Sound.arm (h : q.Sound) (timer : TimerEntry)
    (hnn : q.activeTimers.lookup timer.threadId = none)
    (hmm : timer.timerId ∈ q.timerIds.activeIds)
    (hid : ∀ t ∈ q.timers, t.timerId ≠ timer.timerId) :
    BlockedQueue.Sound { q with
      blocked := insert timer.threadId q.blocked
      timers := insertSorted timer q.timers
      activeTimers := q.activeTimers.insert timer.threadId timer } := by
  have hne (t) (ht : t ∈ q.timers) : compare timer t ≠ .eq := by
    simp only [TimerEntry.compare_def, ne_eq, Ordering.then_eq_eq, Nat.compare_eq_eq]
    exact fun heq => hid t ht heq.2.1.symm
  have hpr := perm_insertSorted hne
  constructor
  · intro k t
    rw [Table.lookup_insert_eq, hpr.mem_iff, List.mem_cons]
    split
    · next hk =>
      subst hk
      constructor
      · rintro ⟨⟩
        exact ⟨.inl rfl, rfl⟩
      · rintro ⟨rfl | ht, hth⟩
        · rfl
        · cases hnn.symm.trans (h.lookup_iff.mpr ⟨ht, hth⟩)
    · next hk =>
      rw [h.lookup_iff]
      constructor
      · exact fun ht => ⟨.inr ht.1, ht.2⟩
      · rintro ⟨rfl | ht, rfl⟩
        · exact absurd rfl hk
        · exact ⟨ht, rfl⟩
  · intro k t hk
    rw [Table.lookup_insert_eq] at hk
    split at hk
    · next heq => exact heq ▸ Finset.mem_insert_self _ _
    · exact Finset.mem_insert_of_mem (h.mem_blocked hk)
  · exact pairwise_insertSorted TimerEntry.compare_lt_trans TimerEntry.compare_lt_of_gt hne h.sorted
  · exact h.timerIds
  · intro t ht
    rcases List.mem_cons.mp (hpr.mem_iff.mp ht) with rfl | ht
    · exact hmm
    · exact h.mem_ids t ht
  · refine (hpr.map _).nodup_iff.mpr (List.nodup_cons.mpr ⟨fun hmm => ?_, h.nodup_ids⟩)
    obtain ⟨t, ht, heq⟩ := List.mem_map.mp hmm
    exact hid t ht heq

theorem Sound.blockWithTimeout (h : q.Sound) (id tm : ℕ) : (q.blockWithTimeout id tm).2.Sound := by
  unfold BlockedQueue.blockWithTimeout
  split
  · exact h
  · next timerId timerIds hal =>
    obtain ⟨hs, hf, ha⟩ := h.timerIds.tryAllocate hal
    have hq : BlockedQueue.Sound { q with timerIds := timerIds } := { h with
      timerIds := hs
      mem_ids := fun t ht => ha ▸ Finset.mem_insert_of_mem (h.mem_ids t ht) }
    have hu : ∀ t ∈ q.timers, t.timerId ≠ timerId := by
      rintro t ht rfl
      exact hf (h.mem_ids t ht)
    refine (hq.removeTimer fun k hk _ => blocked_removeTimer.symm ▸ hk).arm
      ⟨saturatingAdd q.clockMs tm, timerId, id⟩ ?_ ?_ ?_
    · rw [lookup_removeTimer, if_pos rfl]
    · exact mem_activeIds_removeTimer hq hu (ha ▸ Finset.mem_insert_self _ _)
    · intro t ht
      exact hu t (timers_removeTimer_subset (q := { q with timerIds := timerIds }) ht)

theorem size_blockWithTimeout (id tm : ℕ) (h : q.timerIds.tryAllocate.isSome = true) :
    Table.size (q.blockWithTimeout id tm).2.activeTimers + (q.removeTimer id).1.toNat =
      Table.size q.activeTimers + 1 := by
  obtain ⟨⟨t, ti⟩, ha⟩ := Option.isSome_iff_exists.mp h
  have hs := size_removeTimer { q with timerIds := ti } id
  have hn : ({ q with timerIds := ti }.removeTimer id).2.activeTimers.lookup id = none := by
    rw [lookup_removeTimer, if_pos rfl]
  rw [fst_removeTimer] at hs
  unfold blockWithTimeout
  rw [ha, fst_removeTimer]
  rw [Table.size_insert_of_none hn]
  dsimp only at hs
  omega

theorem blocked_blockWithTimeout (tm : ℕ) (h : q.timerIds.tryAllocate.isSome = true) :
    (q.blockWithTimeout id tm).2.blocked = insert id q.blocked := by
  obtain ⟨⟨t, ti⟩, ha⟩ := Option.isSome_iff_exists.mp h
  unfold blockWithTimeout
  rw [ha]
  exact congrArg (insert id) blocked_removeTimer

theorem blocked_block : (q.block id).2.blocked = insert id q.blocked :=
  congrArg (insert id) blocked_removeTimer

/-- The threads that wake up are those whose timers are due; each of them leaves the queue with
its timer. -/
structure Wakes (q : BlockedQueue) (wokeUp : List ℕ) (q' : BlockedQueue) : Prop where
  nodup : wokeUp.Nodup
  mem_iff : ∀ id, id ∈ wokeUp ↔
    ∃ timer, q.activeTimers.lookup id = some timer ∧ timer.deadlineMs ≤ q.clockMs
  timers : Table.size q'.activeTimers + wokeUp.length = Table.size q.activeTimers
  blocked : q'.blocked.card + wokeUp.length = q.blocked.card

/-- A thread whose timer is due leaves the queue. -/
def dropTimer (q : BlockedQueue) (timer : TimerEntry) : BlockedQueue :=
  { q with
    activeTimers := q.activeTimers.erase timer.threadId
    timerIds := q.timerIds.free timer.timerId
    blocked := q.blocked.erase timer.threadId }

theorem ArmedIn.dropTimer {r : List TimerEntry} (h : q.ArmedIn (timer :: r)) :
    (q.dropTimer timer).ArmedIn r := by
  have hn : timer ∉ r := fun hm =>
    (List.nodup_cons.mp h.nodup_ids).1 (List.mem_map_of_mem hm)
  refine h.erase List.mem_cons_self (List.sublist_cons_self _ _) (fun t => ?_)
    (fun id hid hne => Finset.mem_erase.mpr ⟨hne, hid⟩) _
  rw [List.mem_cons]
  constructor
  · exact fun ht => ⟨.inr ht, fun heq => hn (heq ▸ ht)⟩
  · exact fun ⟨ht, hne⟩ => ht.resolve_left hne

theorem ArmedIn.expire_of_due {r : List TimerEntry} (h : q.ArmedIn (timer :: r))
    (hd : timer.deadlineMs ≤ q.clockMs) :
    q.expire (timer :: r) = (timer.threadId :: ((q.dropTimer timer).expire r).1,
      ((q.dropTimer timer).expire r).2) := by
  have ha := h.lookup_iff.mpr ⟨List.mem_cons_self, rfl⟩
  rw [expire, if_neg (not_lt.mpr hd), if_neg (not_not.mpr ha), decide_eq_true (h.mem_blocked ha)]
  rfl

def due (q : BlockedQueue) (timers : List TimerEntry) : List TimerEntry :=
  timers.filter (·.deadlineMs ≤ q.clockMs)

theorem due_cons {r : List TimerEntry} (hd : timer.deadlineMs ≤ q.clockMs) :
    q.due (timer :: r) = timer :: (q.dropTimer timer).due r :=
  List.filter_cons_of_pos (decide_eq_true hd)

theorem ArmedIn.due_eq_nil {r : List TimerEntry} (h : q.ArmedIn (timer :: r))
    (hl : q.clockMs < timer.deadlineMs) : q.due (timer :: r) = [] := by
  refine List.filter_eq_nil_iff.mpr fun t ht => ?_
  have hle : timer.deadlineMs ≤ t.deadlineMs := by
    rcases List.mem_cons.mp ht with rfl | ht
    · exact le_rfl
    · have := TimerEntry.compare_eq_lt.mp (List.rel_of_pairwise_cons h.sorted ht)
      omega
  simpa using hl.trans_le hle

/-- The threads wake up in the order of their timers, and leave the queue. -/
theorem ArmedIn.expire {ts : List TimerEntry} (h : q.ArmedIn ts) :
    (q.expire ts).1 = (q.due ts).map (·.threadId) ∧ (q.expire ts).2.Sound ∧
      (q.expire ts).2.blocked = q.blocked \ (q.expire ts).1.toFinset ∧
      Table.size (q.expire ts).2.activeTimers + (q.expire ts).1.length =
        Table.size q.activeTimers := by
  induction ts generalizing q with
  | nil => exact ⟨rfl, { h with }, (Finset.sdiff_empty).symm, rfl⟩
  | cons timer r ih =>
    by_cases hl : q.clockMs < timer.deadlineMs
    · rw [BlockedQueue.expire, if_pos hl, h.due_eq_nil hl]
      exact ⟨rfl, { h with }, (Finset.sdiff_empty).symm, rfl⟩
    · have hd := not_lt.mp hl
      have ha := h.lookup_iff.mpr ⟨List.mem_cons_self, rfl⟩
      obtain ⟨hw, hs, hb, hsz⟩ := ih h.dropTimer
      rw [h.expire_of_due hd, due_cons hd]
      refine ⟨congrArg (List.cons _) hw, hs, ?_, ?_⟩
      · rw [hb, List.toFinset_cons, Finset.sdiff_insert]
        exact Finset.erase_sdiff_comm _ _ _
      · rw [List.length_cons, ← Table.size_erase_of_some ha, ← Nat.add_assoc]
        exact congrArg (· + 1) hsz

theorem ArmedIn.wakes {ts : List TimerEntry} (h : q.ArmedIn ts) :
    q.Wakes (q.expire ts).1 (q.expire ts).2 := by
  obtain ⟨hw, -, hb, hs⟩ := h.expire
  have hi (id : ℕ) : id ∈ (q.expire ts).1 ↔
      ∃ timer, q.activeTimers.lookup id = some timer ∧ timer.deadlineMs ≤ q.clockMs := by
    rw [hw]
    simp only [due, List.mem_map, List.mem_filter, decide_eq_true_eq, h.lookup_iff]
    exact exists_congr fun timer => and_right_comm
  have hn : (q.expire ts).1.Nodup := by
    rw [hw]
    refine (h.nodup_ids.of_map.filter _).map_on fun x hx y hy => ?_
    exact h.unique (List.mem_filter.mp hx).1 (List.mem_filter.mp hy).1
  refine ⟨hn, hi, hs, ?_⟩
  rw [hb, ← List.toFinset_card_of_nodup hn]
  refine Finset.card_sdiff_add_card_eq_card fun id hid => ?_
  obtain ⟨timer, ht, -⟩ := (hi id).mp (List.mem_toFinset.mp hid)
  exact h.mem_blocked ht

/-- Whether a thread wakes up when the clock goes on. -/
def isDue (q : BlockedQueue) (deltaMs id : ℕ) : Bool :=
  (q.activeTimers.lookup id).any fun timer =>
    decide (timer.deadlineMs ≤ saturatingAdd q.clockMs deltaMs)

theorem isDue_iff (dm : ℕ) : q.isDue dm id = true ↔ ∃ timer, q.activeTimers.lookup id = some timer ∧
      timer.deadlineMs ≤ saturatingAdd q.clockMs dm := by
  unfold isDue
  rw [Option.any_eq_true]
  simp

theorem Sound.advance (h : q.Sound) (cm : ℕ) : ArmedIn { q with clockMs := cm } q.timers :=
  { h with }

theorem Sound.tickTimeouts (h : q.Sound) (dm : ℕ) : (q.tickTimeouts dm).2.Sound :=
  (h.advance _).expire.2.1

theorem Sound.wakes (h : q.Sound) (dm : ℕ) :
    Wakes { q with clockMs := saturatingAdd q.clockMs dm } (q.tickTimeouts dm).1
      (q.tickTimeouts dm).2 :=
  (h.advance _).wakes

theorem expire_withTimers (q : BlockedQueue) (a ts : List TimerEntry) :
    BlockedQueue.expire { q with timers := a } ts = q.expire ts := by
  induction ts generalizing q with
  | nil => rfl
  | cons timer rs ih =>
    simp only [BlockedQueue.expire]
    split
    · rfl
    · split
      · exact ih q
      · exact congrArg (fun r => (if decide (timer.threadId ∈ q.blocked) then
          timer.threadId :: r.1 else r.1, r.2)) (ih (q.dropTimer timer))

/-- The threads that wake up until a later time are those that wake up now and those that wake
up from then on. -/
theorem expire_expire {c c' : ℕ} (hle : c ≤ c') (q : BlockedQueue) (ts : List TimerEntry) :
    let r := BlockedQueue.expire { q with clockMs := c } ts
    let r' := BlockedQueue.expire { r.2 with clockMs := c' } r.2.timers
    BlockedQueue.expire { q with clockMs := c' } ts = (r.1 ++ r'.1, r'.2) := by
  induction ts generalizing q with
  | nil => rfl
  | cons timer rs ih =>
    by_cases hl : c < timer.deadlineMs
    · rw [BlockedQueue.expire.eq_def { q with clockMs := c }]
      dsimp only
      rw [if_pos hl]
      exact (expire_withTimers { q with clockMs := c' } (timer :: rs) (timer :: rs)).symm
    · have hl' : ¬ c' < timer.deadlineMs := fun h => hl (hle.trans_lt h)
      simp only [BlockedQueue.expire, gt_iff_lt, if_neg hl, if_neg hl']
      split
      · exact ih q
      · have hr := ih (q.dropTimer timer)
        simp only [dropTimer] at hr
        rw [hr]
        split <;> rfl

theorem clockMs_expire (q : BlockedQueue) (ts : List TimerEntry) :
    (q.expire ts).2.clockMs = q.clockMs := by
  induction ts generalizing q with
  | nil => rfl
  | cons timer r ih =>
    rw [BlockedQueue.expire]
    split
    · rfl
    · split
      · exact ih q
      · exact ih (q.dropTimer timer)

theorem tickTimeouts_add {a b : ℕ} (h : q.clockMs + a + b ≤ usizeMax) :
    q.tickTimeouts (a + b) = ((q.tickTimeouts a).1 ++ ((q.tickTimeouts a).2.tickTimeouts b).1,
      ((q.tickTimeouts a).2.tickTimeouts b).2) := by
  have hc : (q.tickTimeouts a).2.clockMs = saturatingAdd q.clockMs a := clockMs_expire _ _
  have ha : saturatingAdd (saturatingAdd q.clockMs a) b = saturatingAdd q.clockMs (a + b) := by
    unfold saturatingAdd usizeSaturatingAdd
    omega
  have hle : saturatingAdd q.clockMs a ≤ saturatingAdd q.clockMs (a + b) := by
    unfold saturatingAdd usizeSaturatingAdd
    omega
  rw [tickTimeouts.eq_def (q.tickTimeouts a).2, hc, ha]
  exact expire_expire hle q q.timers

def apply (q : BlockedQueue) : BlockedOp → BlockedQueue
  | .block id => (q.block id).2
  | .blockWithTimeout id timeoutMs => (q.blockWithTimeout id timeoutMs).2
  | .unblock id => (q.unblock id).2
  | .remove id => (q.remove id).2
  | .tick deltaMs => (q.tickTimeouts deltaMs).2

def after (ops : List BlockedOp) : BlockedQueue := ops.foldl apply new

theorem Sound.apply (h : q.Sound) (op : BlockedOp) : (q.apply op).Sound := by
  cases op with
  | block id => exact h.block id
  | blockWithTimeout id tm => exact h.blockWithTimeout id tm
  | unblock id | remove id => exact h.unblock id
  | tick dm => exact h.tickTimeouts dm

theorem sound_after (o : List BlockedOp) : (after o).Sound :=
  List.foldlRecOn o BlockedQueue.apply sound_new fun _ h op _ => h.apply op

/-- The threads that a tick wakes up, in this order: those with a timer whose time has come. None of
them is blocked afterwards, or has a timer. -/
structure Fires (q : BlockedQueue) (deltaMs : ℕ) (due : List TimerEntry) : Prop where
  wokeUp : (q.tickTimeouts deltaMs).1 = due.map (·.threadId)
  mem_due : ∀ timer, timer ∈ due ↔ timer.threadId ∈ q.blocked ∧
    q.activeTimers.lookup timer.threadId = some timer ∧
    timer.deadlineMs ≤ saturatingAdd q.clockMs deltaMs
  sorted : due.Pairwise fun x y =>
    x.deadlineMs < y.deadlineMs ∨ x.deadlineMs = y.deadlineMs ∧ x.timerId < y.timerId
  nodup : (due.map (·.threadId)).Nodup
  gone : ∀ timer ∈ due, timer.threadId ∉ (q.tickTimeouts deltaMs).2.blocked ∧
    (q.tickTimeouts deltaMs).2.activeTimers.lookup timer.threadId = none

theorem Sound.fires (h : q.Sound) (dm : ℕ) :
    q.Fires dm (due { q with clockMs := saturatingAdd q.clockMs dm } q.timers) := by
  obtain ⟨hwk, hsn, hbl, -⟩ := (h.advance (saturatingAdd q.clockMs dm)).expire
  have hgn : ∀ timer ∈ due { q with clockMs := saturatingAdd q.clockMs dm } q.timers,
      timer.threadId ∉ (q.tickTimeouts dm).2.blocked := by
    intro timer htm hmm
    have hwa : timer.threadId ∈ (q.tickTimeouts dm).1 :=
      hwk ▸ List.mem_map_of_mem htm
    rw [BlockedQueue.tickTimeouts, hbl] at hmm
    exact (Finset.mem_sdiff.mp hmm).2 (List.mem_toFinset.mpr hwa)
  constructor
  · exact hwk
  · intro timer
    rw [due, List.mem_filter, decide_eq_true_eq, h.lookup_iff]
    constructor
    · rintro ⟨hmm, hdu⟩
      exact ⟨h.mem_blocked (h.lookup_iff.mpr ⟨hmm, rfl⟩), ⟨hmm, rfl⟩, hdu⟩
    · rintro ⟨-, ⟨hmm, -⟩, hdu⟩
      exact ⟨hmm, hdu⟩
  · have hbt := List.pairwise_and_iff.mpr ⟨h.sorted, List.pairwise_map.mp h.nodup_ids⟩
    refine (hbt.filter _).imp fun {x y} hxy => ?_
    have hlt := TimerEntry.compare_eq_lt.mp hxy.1
    have hne := hxy.2
    omega
  · rw [← hwk]
    exact (h.wakes dm).nodup
  · exact fun timer htm => ⟨hgn timer htm, hsn.lookup_eq_none (hgn timer htm)⟩

/-- The timers that count are the entries of the timer set, a tick fires those that are due, and two
ticks wake the threads that one tick of both durations wakes. -/
theorem timeouts_fire (ops : List BlockedOp) : (∀ timer, timer ∈ (after ops).timers ↔
      ∃ id, (after ops).activeTimers.lookup id = some timer) ∧
    (∀ deltaMs, ∃ due, (after ops).Fires deltaMs due) ∧
    ∀ a b, (after ops).clockMs + a + b ≤ usizeMax →
      ((after ops).tickTimeouts a).1 ++ (((after ops).tickTimeouts a).2.tickTimeouts b).1 =
        ((after ops).tickTimeouts (a + b)).1 := by
  have h := sound_after ops
  refine ⟨fun timer => ?_, fun deltaMs => ⟨_, h.fires deltaMs⟩, fun a b hc => ?_⟩
  · simp [h.lookup_iff]
  · rw [tickTimeouts_add hc]

/-- The thread that is blocked again has its second timer only. -/
theorem timeouts_fire_twice :
    let q := after [.blockWithTimeout 1 5, .blockWithTimeout 2 7, .blockWithTimeout 1 9]
    (q.tickTimeouts 8).1 ++ ((q.tickTimeouts 8).2.tickTimeouts 2).1 = [2, 1] :=
  ((timeouts_fire _).2.2 8 2 (by decide)).trans (by decide)

end BlockedQueue

end Galfus
