import ExactSpend.Proofs.Plan.Yields
import ExactSpend.Wallet.Withdrawal
import Mathlib.Data.List.Nodup

/-!
# Coins of a wallet

Coins are spent by their serial numbers.  As long as no two coins share a
number, a list of numbers stands for exactly the coins it was read from, and
the coins at some indices of a request are the coins of the wallet there.
-/

namespace ExactSpend
namespace Wallet

variable {w : Wallet} {rate : FeeRate} {picks : List OwnedCoin}

/-- No two coins have the same number, and later coins get larger ones. -/
structure WellNumbered (w : Wallet) : Prop where
  nodup : (w.coins.map (·.serial)).Nodup
  lt_received : ∀ c ∈ w.coins, c.serial < w.received

/-- Distinct coins of a wallet that one payment may spend. -/
structure Spendable (w : Wallet) (rate : FeeRate)
    (picks : List OwnedCoin) : Prop where
  nodup : picks.Nodup
  mem : ∀ c ∈ picks, c ∈ w.coins
  worth_pos : ∀ c ∈ picks, 0 < c.coin.effectiveValue rate
  length_le : picks.length ≤ w.rules.inputLimit

/-- What some coins are worth together. -/
def effective (rate : FeeRate) (picks : List OwnedCoin) : ℤ :=
  Signed.total (picks.map (·.coin.effectiveValue rate))

/-- The total amount of some coins. -/
def held (picks : List OwnedCoin) : ℕ :=
  Unsigned.total (picks.map (·.coin.amount))

@[simp] theorem effective_nil (rate : FeeRate) : effective rate [] = 0 := rfl

@[simp] theorem effective_cons (rate : FeeRate) (c : OwnedCoin)
    (picks : List OwnedCoin) :
    effective rate (c :: picks) =
      c.coin.effectiveValue rate + effective rate picks := rfl

theorem effective_perm {other : List OwnedCoin} (h : picks.Perm other) :
    effective rate picks = effective rate other :=
  Signed.total_perm (h.map _)

theorem held_perm {other : List OwnedCoin} (h : picks.Perm other) :
    held picks = held other :=
  (h.map _).sum_eq

theorem effective_le_held (rate : FeeRate) (picks : List OwnedCoin) :
    effective rate picks ≤ held picks := by
  induction picks with
  | nil => exact le_refl 0
  | cons c picks ih =>
      have hvalue := c.coin.effectiveValue_le_amount rate
      unfold effective held at ih ⊢
      rw [List.map_cons, List.map_cons, Signed.total_cons, Unsigned.total_cons]
      omega

theorem Spendable.perm {other : List OwnedCoin} (h : w.Spendable rate picks)
    (hperm : picks.Perm other) : w.Spendable rate other where
  nodup := hperm.nodup_iff.mp h.nodup
  mem c hc := h.mem c (hperm.mem_iff.mpr hc)
  worth_pos c hc := h.worth_pos c (hperm.mem_iff.mpr hc)
  length_le := hperm.length_eq ▸ h.length_le

/-! ## Numbers -/

theorem WellNumbered.serial_inj (h : w.WellNumbered) {c d : OwnedCoin}
    (hc : c ∈ w.coins) (hd : d ∈ w.coins) (heq : c.serial = d.serial) : c = d :=
  List.inj_on_of_nodup_map h.nodup hc hd heq

theorem WellNumbered.coins_nodup (h : w.WellNumbered) : w.coins.Nodup :=
  h.nodup.of_map _

theorem WellNumbered.serial_mem_iff (h : w.WellNumbered)
    (hmem : ∀ c ∈ picks, c ∈ w.coins) {c : OwnedCoin} (hc : c ∈ w.coins) :
    c.serial ∈ picks.map (·.serial) ↔ c ∈ picks := by
  constructor
  · intro hserial
    obtain ⟨d, hd, heq⟩ := List.mem_map.mp hserial
    rwa [← h.serial_inj (hmem d hd) hc heq]
  · exact List.mem_map_of_mem

theorem split_fst_eq_filter (h : w.WellNumbered)
    (hmem : ∀ c ∈ picks, c ∈ w.coins) :
    (w.split (picks.map (·.serial))).1 = w.coins.filter fun c => c ∈ picks := by
  rw [split, List.partition_eq_filter_filter]
  apply List.filter_congr
  intro c hc
  simp only [List.contains_eq_mem, h.serial_mem_iff hmem hc]

theorem split_snd_eq_filter (h : w.WellNumbered)
    (hmem : ∀ c ∈ picks, c ∈ w.coins) :
    (w.split (picks.map (·.serial))).2 = w.coins.filter fun c => c ∉ picks := by
  rw [split, List.partition_eq_filter_filter]
  apply List.filter_congr
  intro c hc
  simp only [Function.comp_apply, List.contains_eq_mem,
    h.serial_mem_iff hmem hc, decide_not]

/-- The coins with the numbers of some distinct coins are these coins. -/
theorem filter_mem_perm (h : w.WellNumbered) (hnodup : picks.Nodup)
    (hmem : ∀ c ∈ picks, c ∈ w.coins) :
    (w.coins.filter fun c => c ∈ picks).Perm picks := by
  rw [List.perm_ext_iff_of_nodup (h.coins_nodup.filter _) hnodup]
  intro c
  rw [List.mem_filter, decide_eq_true_iff]
  exact ⟨And.right, fun hc => ⟨hmem c hc, hc⟩⟩

/-- What is held is held in the coins picked and in the others. -/
theorem held_filter_add (h : w.WellNumbered) (hpicks : w.Spendable rate picks) :
    held (w.coins.filter fun c => c ∉ picks) + held picks = held w.coins := by
  have hsplit := List.filter_append_perm (fun c => decide (c ∈ picks)) w.coins
  rw [← held_perm hsplit,
    ← held_perm (filter_mem_perm h hpicks.nodup hpicks.mem)]
  simp only [held, List.map_append, Unsigned.total_append, decide_not]
  exact Nat.add_comm _ _

theorem worth_serials (h : w.WellNumbered) (hpicks : w.Spendable rate picks) :
    w.worth rate (picks.map (·.serial)) = effective rate picks := by
  rw [worth, split_fst_eq_filter h hpicks.mem]
  exact effective_perm (filter_mem_perm h hpicks.nodup hpicks.mem)

/-- Coins that may be spent are worth no more than the wallet holds. -/
theorem Spendable.effective_le_balance (h : w.WellNumbered)
    (hpicks : w.Spendable rate picks) :
    effective rate picks ≤ w.balance := by
  have hheld : held w.coins = w.balance := rfl
  have hpart := held_filter_add h hpicks
  have hworth := effective_le_held rate picks
  omega

/-! ## Indices -/

/-- The coins that stand at some indices. -/
def CoinsAt (w : Wallet) (indices : List ℕ) (picks : List OwnedCoin) : Prop :=
  List.Forall₂ (fun i c => w.coins[i]? = some c) indices picks

theorem exists_coinsAt {indices : List ℕ}
    (h : ∀ i ∈ indices, i < w.coins.length) :
    ∃ picks, w.CoinsAt indices picks := by
  induction indices with
  | nil => exact ⟨[], .nil⟩
  | cons i indices ih =>
      obtain ⟨picks, hpicks⟩ := ih fun j hj => h j (List.mem_cons_of_mem i hj)
      have hi : i < w.coins.length := h i List.mem_cons_self
      exact ⟨w.coins[i] :: picks, .cons (List.getElem?_eq_getElem hi) hpicks⟩

theorem exists_indices (h : ∀ c ∈ picks, c ∈ w.coins) : ∃ indices,
    w.CoinsAt indices picks := by
  induction picks with
  | nil => exact ⟨[], .nil⟩
  | cons c picks ih =>
      obtain ⟨indices, hindices⟩ :=
        ih fun d hd => h d (List.mem_cons_of_mem c hd)
      obtain ⟨i, hi⟩ := List.mem_iff_getElem?.mp (h c List.mem_cons_self)
      exact ⟨i :: indices, .cons hi hindices⟩

namespace CoinsAt

variable {indices : List ℕ} {payment : Payment}

theorem serialsAt_eq (h : w.CoinsAt indices picks) :
    w.serialsAt indices = picks.map (·.serial) := by
  induction h with
  | nil => rfl
  | cons hi _ ih =>
      rw [serialsAt] at ih ⊢
      rw [List.map_cons, List.map_cons, ih]
      simp [hi]

theorem worthAt_eq {i : ℕ} {c : OwnedCoin} (h : w.coins[i]? = some c) :
    (w.request payment rate).worthAt i = c.coin.effectiveValue rate := by
  apply Request.worthAt_eq
  simp [request, h]

theorem worth_eq (h : w.CoinsAt indices picks) :
    (w.request payment rate).worth indices = effective rate picks := by
  unfold Request.worth effective
  induction h with
  | nil => rfl
  | cons hi _ ih =>
      rw [List.map_cons, List.map_cons, Signed.total_cons, Signed.total_cons,
        worthAt_eq hi, ih]

theorem forall_iff (h : w.CoinsAt indices picks) :
    (∀ i ∈ indices, 0 < (w.request payment rate).worthAt i) ↔
      ∀ c ∈ picks, 0 < c.coin.effectiveValue rate := by
  induction h with
  | nil => simp
  | cons hi _ ih =>
      rw [List.forall_mem_cons, List.forall_mem_cons, worthAt_eq hi, ih]

theorem mem_coins (h : w.CoinsAt indices picks) : ∀ c ∈ picks, c ∈ w.coins := by
  induction h with
  | nil => simp
  | cons hi _ ih => exact List.forall_mem_cons.mpr ⟨List.mem_of_getElem? hi, ih⟩

theorem nodup_iff (h : w.CoinsAt indices picks) (hw : w.WellNumbered) :
    indices.Nodup ↔ picks.Nodup := by
  apply List.rel_nodup _ h
  constructor
  · intro i j c hi hj
    have hlt : i < w.coins.length := (List.getElem?_eq_some_iff.mp hi).1
    exact (List.getElem?_inj hlt hw.coins_nodup).mp (hi.trans hj.symm)
  · intro i c d hc hd
    exact Option.some.inj (hc.symm.trans hd)

/-- A request may spend the coins at some indices exactly when the wallet may
spend them. -/
theorem affords_iff (h : w.CoinsAt indices picks) (hw : w.WellNumbered) :
    (w.request payment rate).Affords indices ↔ w.Spendable rate picks := by
  have hlength : indices.length = picks.length := List.Forall₂.length_eq h
  constructor
  · intro haffords
    exact ⟨(h.nodup_iff hw).mp haffords.nodup, h.mem_coins,
      h.forall_iff.mp haffords.worth_pos, hlength ▸ haffords.length_le⟩
  · intro hspendable
    exact ⟨(h.nodup_iff hw).mpr hspendable.nodup,
      h.forall_iff.mpr hspendable.worth_pos, hlength ▸ hspendable.length_le⟩

end CoinsAt

theorem exists_spendable (hw : w.WellNumbered) {payment : Payment}
    {indices : List ℕ} (h : (w.request payment rate).Affords indices) :
    ∃ picks, w.CoinsAt indices picks ∧ w.Spendable rate picks := by
  obtain ⟨picks, hpicks⟩ := @exists_coinsAt w indices fun i hi => by
    simpa [request] using Request.lt_size_of_worthAt_pos (h.worth_pos i hi)
  exact ⟨picks, hpicks, (hpicks.affords_iff hw).mp h⟩

end Wallet
end ExactSpend
