import Galfus.Graph.Paint

/-! # Trial deletion

The scan phase of a trial-deletion cycle collector. The counters of a closed
set `Γ` of gray nodes no longer count the references out of `Γ`. Scanning a gray
node restores it, and all that it reaches, when it is held or still counted, and
turns it white otherwise. Once every start node is scanned, a node of `Γ` is
black exactly when a supported node reaches it.
-/

namespace Galfus.Graph

open Marking

variable {ν κ : Type*}

/-- What scanning the nodes `vs` has done: no gray node is left among them, nor
behind any node that lost its gray. -/
structure Scans (succ : ν → List ν) (gray : κ) (vs : List ν) (s s' : Marking ν κ) : Prop where
  keeps : ∀ u, s.color u ≠ gray → s'.color u ≠ gray
  start : ∀ v ∈ vs, s'.color v ≠ gray
  behind : ∀ u, s.color u = gray → s'.color u ≠ gray → ∀ w ∈ succ u, s'.color w ≠ gray

theorem Scans.nil {succ : ν → List ν} {gray : κ} (s : Marking ν κ) : Scans succ gray [] s s where
  keeps _ h := h
  start := by simp
  behind _ h h' := absurd h h'

theorem Scans.append {succ : ν → List ν} {gray : κ} {vs vs' : List ν} {s s₁ s₂ : Marking ν κ}
    (h : Scans succ gray vs s s₁)
    (h' : Scans succ gray vs' s₁ s₂) : Scans succ gray (vs ++ vs') s s₂ where
  keeps u hu := h'.keeps u (h.keeps u hu)
  start v hv := by
    rcases List.mem_append.mp hv with hv | hv
    · exact h'.keeps v (h.start v hv)
    · exact h'.start v hv
  behind u hu hu' w hw := by
    by_cases h₁ : s₁.color u = gray
    · exact h'.behind u h₁ hu' w hw
    · exact h'.keeps w (h.behind u hu h₁ w hw)

variable [DecidableEq ν] [DecidableEq κ]

/-- Scan one node: restore it in black, or turn it white and scan its successors. -/
def scan (succ : ν → List ν) (gray white black : κ) (held : ν → Bool) (τ : ℕ → ℕ) (m : ℕ) :
    ℕ → Marking ν κ → ν → Marking ν κ
  | 0, s, _ => s
  | n + 1, s, v =>
    if s.color v = gray then
      if held v || decide (0 < s.count v) then paint succ black τ m s v
      else (succ v).foldl (scan succ gray white black held τ m n) (s.shade white v)
    else s

/-- The nodes of `Γ` that are counted from outside of it, or held. -/
def Supported (held : ν → Bool) (count : ν → ℕ) (v : ν) : Prop :=
  held v = true ∨ 0 < count v

/-- The state of a scan over the gray set `Γ`, whose counters were `c₁` at its start. -/
structure Scanning (succ : ν → List ν) (gray white black : κ) (held : ν → Bool) (τ : ℕ → ℕ)
    (Γ : Finset ν) (s₀ s : Marking ν κ) : Prop where
  outside : ∀ u ∉ Γ, s.color u = s₀.color u
  shades : ∀ u ∈ Γ, s.color u = gray ∨ s.color u = white ∨ s.color u = black
  count : ∀ w, s.count w = τ^[refs succ (Γ.filter (s.color · = black)) w] (s₀.count w)
  black_closed : ∀ u ∈ Γ, s.color u = black → ∀ w ∈ succ u, s.color w = black
  white_idle : ∀ u ∈ Γ, s.color u = white → held u = false ∧ s.count u = 0
  supported : ∀ u ∈ Γ, s.color u = black → ∃ x ∈ Γ, Supported held s₀.count x ∧ Reaches succ x u

section

variable {succ : ν → List ν} {gray white black : κ} {held : ν → Bool} {τ : ℕ → ℕ} {m n : ℕ}
  {Γ : Finset ν} {s₀ s s' : Marking ν κ} {v w : ν}

theorem Scanning.start (hg : ∀ u ∈ Γ, s₀.color u = gray) (hgb : gray ≠ black) (hgw : gray ≠ white) :
    Scanning succ gray white black held τ Γ s₀ s₀ where
  outside _ _ := rfl
  shades u hu := .inl (hg u hu)
  count w := by
    have : Γ.filter (s₀.color · = black) = ∅ :=
      Finset.filter_eq_empty_iff.mpr fun u hu hb => hgb ((hg u hu).symm.trans hb)
    simp [this]
  black_closed u hu hb := absurd ((hg u hu).symm.trans hb) hgb
  white_idle u hu hw := absurd ((hg u hu).symm.trans hw) hgw
  supported u hu hb := absurd ((hg u hu).symm.trans hb) hgb

theorem Scanning.shade_white (h : Scanning succ gray white black held τ Γ s₀ s) (hv : v ∈ Γ)
    (hgb : gray ≠ black) (hwb : white ≠ black) (hc : s.color v = gray) (hh : held v = false)
    (h0 : s.count v = 0) : Scanning succ gray white black held τ Γ s₀ (s.shade white v) := by
  have hne : ∀ u, (s.shade white v).color u = black ↔ s.color u = black := by
    intro u
    by_cases hu : u = v
    · simp [hu, hc, hgb, hwb]
    · simp [hu]
  refine ⟨fun u hu => ?_, fun u hu => ?_, fun w => ?_, fun u hu hb w hw => ?_, fun u hu hw => ?_,
    fun u hu hb => ?_⟩
  · have huv : u ≠ v := fun he => hu (he ▸ hv)
    simpa [huv] using h.outside u hu
  · by_cases huv : u = v
    · simp [huv]
    · simpa [huv] using h.shades u hu
  · simpa only [hne, shade_count] using h.count w
  · exact (hne w).mpr (h.black_closed u hu ((hne u).mp hb) w hw)
  · by_cases huv : u = v
    · subst huv
      exact ⟨hh, h0⟩
    · exact h.white_idle u hu (by simpa [huv] using hw)
  · exact h.supported u hu ((hne u).mp hb)

theorem Scanning.paint_black (h : Scanning succ gray white black held τ Γ s₀ s)
    (hΓ : Closed succ (Γ : Set ν)) (hv : v ∈ Γ) (hgb : gray ≠ black) (hwb : white ≠ black)
    (hc : s.color v = gray) (hs : held v = true ∨ 0 < s.count v)
    {N : Finset ν} (hN : Paints succ black τ s [v] [] N s') :
    Scanning succ gray white black held τ Γ s₀ s' := by
  have hNΓ : ∀ u ∈ N, u ∈ Γ := by
    intro u hu
    obtain ⟨x, hx, hr⟩ := hN.reached u hu
    obtain rfl := List.mem_singleton.mp hx
    exact hΓ.mem_of_reaches hv hr
  have hbl : Γ.filter (s'.color · = black) = Γ.filter (s.color · = black) ∪ N := by
    ext u
    simp only [Finset.mem_filter, Finset.mem_union, hN.spread.color]
    by_cases hu : u ∈ N
    · simp [hu, hNΓ u hu]
    · simp [hu]
  have hds : Disjoint (Γ.filter (s.color · = black)) N :=
    Finset.disjoint_right.mpr fun u hu hb => hN.spread.fresh u hu (Finset.mem_filter.mp hb).2
  have hcn : ∀ w, s'.count w = τ^[refs succ N w] (s.count w) := by
    intro w
    simpa using hN.spread.count w
  -- `v` is not yet black, so no black node refers to it and its count is the one it started with
  have hsv : Supported held s₀.count v := by
    rcases hs with hs | hs
    · exact .inl hs
    · right
      rw [h.count] at hs
      have hz : refs succ (Γ.filter (s.color · = black)) v = 0 := by
        refine refs_eq_zero_iff.mpr fun u hu hmm => ?_
        obtain ⟨huΓ, hub⟩ := Finset.mem_filter.mp hu
        exact hgb (hc.symm.trans (h.black_closed u huΓ hub v hmm))
      rwa [hz] at hs
  refine ⟨fun u hu => ?_, fun u hu => ?_, fun w => ?_, fun u hu hb w hw => ?_, fun u hu hw => ?_,
    fun u hu hb => ?_⟩
  · rw [hN.spread.color, if_neg fun hm => hu (hNΓ u hm)]
    exact h.outside u hu
  · rw [hN.spread.color]
    split
    · exact .inr (.inr rfl)
    · exact h.shades u hu
  · rw [hbl, refs_union hds, hcn, h.count, ← Function.iterate_add_apply, Nat.add_comm]
  · rw [hN.spread.color] at hb
    by_cases hu' : u ∈ N
    · exact hN.closed u hu' w hw
    · exact hN.spread.keeps (h.black_closed u hu (by simpa [hu'] using hb) w hw)
  · have hu' : u ∉ N := fun hm => hwb (hw.symm.trans (hN.spread.painted hm))
    rw [hN.spread.color, if_neg hu'] at hw
    obtain ⟨hh, h0⟩ := h.white_idle u hu hw
    refine ⟨hh, ?_⟩
    -- a node that was reached by a restored edge is black by now
    have hz : refs succ N u = 0 := refs_eq_zero_iff.mpr fun x hx hmm => by
      have := hN.closed x hx u hmm
      rw [hN.spread.color, if_neg hu', hw] at this
      exact hwb this
    rw [hcn, hz, h0]
    rfl
  · rw [hN.spread.color] at hb
    by_cases hu' : u ∈ N
    · obtain ⟨x, hx, hr⟩ := hN.reached u hu'
      obtain rfl := List.mem_singleton.mp hx
      exact ⟨x, hv, hsv, hr⟩
    · exact h.supported u hu (by simpa [hu'] using hb)

theorem scan_keeps (succ : ν → List ν) (white : κ) (held : ν → Bool) (τ : ℕ → ℕ) (m : ℕ)
    (hgb : gray ≠ black) (hgw : gray ≠ white) (n : ℕ) (s : Marking ν κ) (v u : ν)
    (hu : s.color u ≠ gray) : (scan succ gray white black held τ m n s v).color u ≠ gray := by
  induction n generalizing s v with
  | zero => exact hu
  | succ n ih =>
    simp only [scan]
    split
    swap
    · exact hu
    split
    · rcases paint_color succ black τ m s v u with he | he <;> rw [he]
      · exact hu
      · exact hgb.symm
    refine List.foldlRecOn (motive := fun t => t.color u ≠ gray) _ _ ?_ fun t ht w _ => ih t w ht
    rw [shade_color]
    split
    · exact hgw.symm
    · exact hu

/-- Steps that keep the invariant and leave nothing gray behind a node, over a list. -/
theorem Scanning.foldl {f : Marking ν κ → ν → Marking ν κ} {n : ℕ}
    (hf : ∀ t, ∀ w ∈ Γ, (painted Γ gray t).card < n → Scanning succ gray white black held τ Γ s₀ t →
      Scanning succ gray white black held τ Γ s₀ (f t w) ∧ Scans succ gray [w] t (f t w))
    {ws : List ν} (hws : ∀ w ∈ ws, w ∈ Γ) {t : Marking ν κ}
    (htn : (painted Γ gray t).card < n)
    (ht : Scanning succ gray white black held τ Γ s₀ t) :
    Scanning succ gray white black held τ Γ s₀ (ws.foldl f t) ∧
      Scans succ gray ws t (ws.foldl f t) := by
  induction ws generalizing t with
  | nil => exact ⟨ht, .nil t⟩
  | cons w ws ih =>
    obtain ⟨ha, hb⟩ := hf t w (hws w (by simp)) htn ht
    have hle := lt_of_le_of_lt (card_painted_le hb.keeps) htn
    obtain ⟨hc, hd⟩ := ih (fun x hx => hws x (by simp [hx])) hle ha
    exact ⟨hc, hb.append hd⟩

/-- With fuel for every node of `Γ`, scanning a node keeps the invariant and leaves nothing gray
behind it. -/
theorem scan_scans (hΓ : Closed succ (Γ : Set ν)) (hgb : gray ≠ black) (hgw : gray ≠ white)
    (hwb : white ≠ black) (hm : Γ.card < m) (n : ℕ) (s : Marking ν κ) (v : ν) (hv : v ∈ Γ)
    (hn : (painted Γ gray s).card < n)
    (h : Scanning succ gray white black held τ Γ s₀ s) :
    Scanning succ gray white black held τ Γ s₀ (scan succ gray white black held τ m n s v) ∧
      Scans succ gray [v] s (scan succ gray white black held τ m n s v) := by
  induction n generalizing s v with
  | zero => omega
  | succ n ih =>
    by_cases hc : s.color v = gray
    swap
    · simp only [scan, hc, if_false]
      exact ⟨h, fun _ hu => hu, by simpa using hc, fun u hu hu' => absurd hu hu'⟩
    by_cases hs : held v = true ∨ 0 < s.count v
    · have he : scan succ gray white black held τ m (n + 1) s v = paint succ black τ m s v := by
        simp [scan, hc, hs]
      rw [he]
      have hfl : (unpainted Γ black s).card < m :=
        lt_of_le_of_lt (Finset.card_filter_le _ _) hm
      obtain ⟨N, hN⟩ := paint_paints (τ := τ) hΓ m s v hv hfl
      have h' := h.paint_black hΓ hv hgb hwb hc hs hN
      have hnt : ∀ u, (paint succ black τ m s v).color u = black →
          (paint succ black τ m s v).color u ≠ gray := fun u hb hg => hgb (hg.symm.trans hb)
      refine ⟨h', fun u hu => ?_, fun u hu => hnt u (hN.start u hu), fun u hu hu' w hw => ?_⟩
      · rw [hN.spread.color]
        split
        · exact hgb.symm
        · exact hu
      · have huN : u ∈ N := by
          by_contra hm'
          rw [hN.spread.color, if_neg hm'] at hu'
          exact hu' hu
        exact hnt w (hN.closed u huN w hw)
    · have hid : held v = false ∧ s.count v = 0 := by
        simpa [not_or] using hs
      have he : scan succ gray white black held τ m (n + 1) s v =
          (succ v).foldl (scan succ gray white black held τ m n) (s.shade white v) := by
        simp [scan, hc, hid.1, hid.2]
      rw [he]
      have h₁ := h.shade_white hv hgb hwb hc hid.1 hid.2
      have hlt : (painted Γ gray (s.shade white v)).card < n := by
        have := card_painted_shade_lt hv hc hgw.symm
        omega
      obtain ⟨ha, hb⟩ := Scanning.foldl (fun t w hw htn ht => ih t w hw htn ht)
        (fun w hw => hΓ v hv w hw) hlt h₁
      have hvn : (s.shade white v).color v ≠ gray := by simpa using hgw.symm
      refine ⟨ha, fun u hu => hb.keeps u ?_, by simpa using hb.keeps v hvn, fun u hu hu' w hw => ?_⟩
      · rw [shade_color]
        split
        · exact hgw.symm
        · exact hu
      · by_cases huv : u = v
        · subst huv
          exact hb.start w hw
        · exact hb.behind u (by simpa [huv] using hu) hu' w hw

/-- Scanning the start nodes of a gray set `Γ` leaves black exactly what a supported node reaches,
and the rest of `Γ` white and uncounted. -/
theorem scan_all (held : ν → Bool) (hΓ : Closed succ (Γ : Set ν)) (hgb : gray ≠ black)
    (hgw : gray ≠ white) (hwb : white ≠ black) (hm : Γ.card < m) (hn : Γ.card < n)
    (hτ : ∀ k w, s₀.count w ≤ τ^[k] (s₀.count w)) (hg : ∀ u ∈ Γ, s₀.color u = gray)
    (vs : List ν) (hvs : ∀ v ∈ vs, v ∈ Γ) (hrc : ∀ u ∈ Γ, ∃ v ∈ vs, Reaches succ v u) :
    let s := vs.foldl (scan succ gray white black held τ m n) s₀
    Scanning succ gray white black held τ Γ s₀ s ∧
      ∀ u ∈ Γ, (s.color u = black ∨ s.color u = white) ∧
        (s.color u = black ↔ ∃ x ∈ Γ, Supported held s₀.count x ∧ Reaches succ x u) := by
  intro s
  obtain ⟨ha, hb⟩ := Scanning.foldl (fun t w hw => scan_scans hΓ hgb hgw hwb hm n t w hw) hvs
    (lt_of_le_of_lt (Finset.card_filter_le _ _) hn) (.start hg hgb hgw)
  refine ⟨ha, fun u hu => ?_⟩
  -- the non-gray nodes of `Γ` are closed under `succ` and contain the start nodes
  have hcl : Closed succ {u | u ∈ Γ ∧ s.color u ≠ gray} := by
    rintro x ⟨hx, hxg⟩ w hw
    exact ⟨hΓ x hx w hw, hb.behind x (hg x hx) hxg w hw⟩
  have hng : ∀ u ∈ Γ, s.color u ≠ gray := by
    intro u hu
    obtain ⟨v, hv, hr⟩ := hrc u hu
    exact (hcl.mem_of_reaches ⟨hvs v hv, hb.start v hv⟩ hr).2
  refine ⟨(ha.shades u hu).elim (fun h => absurd h (hng u hu)) .symm, ha.supported u hu, ?_⟩
  rintro ⟨x, hx, hsx, hr⟩
  have hxb : s.color x = black := by
    rcases ha.shades x hx with h | h | h
    · exact absurd h (hng x hx)
    · obtain ⟨hh, h0⟩ := ha.white_idle x hx h
      rcases hsx with hsx | hsx
      · simp [hsx] at hh
      · have := hτ (refs succ (Γ.filter (s.color · = black)) x) x
        rw [← ha.count] at this
        omega
    · exact h
  have hbc : Closed succ {u | u ∈ Γ ∧ s.color u = black} := by
    rintro y ⟨hy, hyb⟩ w hw
    exact ⟨hΓ y hy w hw, ha.black_closed y hy hyb w hw⟩
  exact (hbc.mem_of_reaches ⟨hx, hxb⟩ hr).2

end

end Galfus.Graph
