import ExactSpend.Proofs.Plan.Tasks

/-!
# Groups of coins

A script group holds the coins of its script with their total, so its script
says all of it.  The order of the groups tells any two scripts apart; hence
sorting groups gives one result, in whatever order they were formed.
-/

namespace ExactSpend

/-! ## The order of scripts -/

namespace Script

theorem lt_of_compareLex {xs : List UInt8} : ∀ {ys : List UInt8},
    xs.compareLex compare ys = .lt → xs < ys := by
  induction xs with
  | nil =>
      intro ys h
      cases ys with
      | nil => cases h
      | cons y ys => exact List.nil_lt_cons y ys
  | cons x xs ih =>
      intro ys h
      cases ys with
      | nil => cases h
      | cons y ys =>
          rw [List.compareLex_cons_cons, Ordering.then_eq_lt] at h
          rw [List.cons_lt_cons_iff]
          rcases h with hlt | ⟨heq, htail⟩
          · exact Or.inl (Std.compare_eq_lt.mp hlt)
          · exact Or.inr ⟨Std.LawfulEqOrd.eq_of_compare heq, ih htail⟩

theorem bytes_lt_of_isLE {a b : Script} (h : (compare a b).isLE = true)
    (hne : a ≠ b) :
    a.bytes < b.bytes := by
  cases hcompare : compare a b with
  | lt => exact lt_of_compareLex hcompare
  | eq => exact absurd (Std.LawfulEqOrd.eq_of_compare hcompare) hne
  | gt => simp [hcompare] at h

end Script

namespace ScriptGroup

theorem precedes_iff {a b : ScriptGroup} :
    a.precedes b = true ↔ a.total < b.total ∨
      a.total = b.total ∧ (compare a.script b.script).isLE = true := by
  rw [precedes, decide_eq_true_iff]

theorem precedes_trans (a b c : ScriptGroup) (hab : a.precedes b = true)
    (hbc : b.precedes c = true) : a.precedes c = true := by
  rw [precedes_iff] at hab hbc ⊢
  rcases hab with hab | ⟨hab, hscripts⟩
  · rcases hbc with hbc | ⟨hbc, -⟩
    · exact Or.inl (hab.trans hbc)
    · exact Or.inl (hbc ▸ hab)
  · rcases hbc with hbc | ⟨hbc, hscripts'⟩
    · exact Or.inl (hab ▸ hbc)
    · exact Or.inr ⟨hab.trans hbc, Std.TransCmp.isLE_trans hscripts hscripts'⟩

theorem precedes_total (a b : ScriptGroup) :
    (a.precedes b || b.precedes a) = true := by
  rw [Bool.or_eq_true, precedes_iff, precedes_iff]
  rcases lt_trichotomy a.total b.total with hlt | heq | hgt
  · exact Or.inl (Or.inl hlt)
  · have hswap : compare b.script a.script = (compare a.script b.script).swap :=
      Std.OrientedCmp.eq_swap
    rw [hswap]
    cases compare a.script b.script with
    | lt => exact Or.inl (Or.inr ⟨heq, rfl⟩)
    | eq => exact Or.inl (Or.inr ⟨heq, rfl⟩)
    | gt => exact Or.inr (Or.inr ⟨heq.symm, rfl⟩)
  · exact Or.inr (Or.inl hgt)

/-- Groups that stand before each other have one script. -/
theorem script_eq_of_precedes {a b : ScriptGroup} (hab : a.precedes b = true)
    (hba : b.precedes a = true) : a.script = b.script := by
  rw [precedes_iff] at hab hba
  have htotal : a.total = b.total := by omega
  have hle : (compare a.script b.script).isLE = true := by
    rcases hab with hlt | ⟨-, hle⟩
    · exact absurd htotal hlt.ne
    · exact hle
  have hge : (compare b.script a.script).isLE = true := by
    rcases hba with hlt | ⟨-, hge⟩
    · exact absurd htotal.symm hlt.ne
    · exact hge
  exact Std.LawfulEqOrd.eq_of_compare (Std.OrientedCmp.isLE_antisymm hle hge)

end ScriptGroup

namespace Request

variable {r : Request}

/-! ## The coins of a script group -/

/-- The total amount of the coins of a script, at most `unsignedMax`. -/
def totalOf (r : Request) (script : Script) : ℕ :=
  min (Unsigned.total
    ((r.coins.toList.filter fun c => c.script = script).map (·.amount)))
    unsignedMax

/-- The group of a script. -/
def groupOf (r : Request) (script : Script) : ScriptGroup :=
  ⟨script, r.membersOf script, r.totalOf script⟩

theorem foldl_unsignedAdd (amount : ℕ → ℕ) (members : List ℕ) :
    ∀ total ≤ unsignedMax,
      members.foldl (fun total i => Unsigned.add total (amount i)) total =
        min (total + Unsigned.total (members.map amount)) unsignedMax := by
  induction members with
  | nil => exact fun total htotal => (min_eq_left htotal).symm
  | cons i members ih =>
      intro total _
      have hle : Unsigned.add total (amount i) ≤ unsignedMax :=
        Nat.min_le_right _ _
      rw [List.foldl_cons, ih _ hle, Unsigned.add, List.map_cons,
        Unsigned.total_cons]
      omega

theorem map_fst_filter_zipIdx (script : Script) (coins : List Coin) :
    ((coins.zipIdx.filter fun e => e.1.script = script).map (·.1)) =
      coins.filter fun c => c.script = script := by
  have h := (List.filter_map (f := Prod.fst)
    (p := fun c : Coin => decide (c.script = script)) (l := coins.zipIdx)).symm
  rwa [List.zipIdx_map_fst] at h

theorem map_amountAt_membersOf (r : Request) (script : Script) :
    (r.membersOf script).map r.amountAt =
      (r.coins.toList.filter fun c => c.script = script).map (·.amount) := by
  rw [← map_fst_filter_zipIdx, membersOf, List.map_map, List.map_map]
  apply List.map_congr_left
  intro e he
  have hget := List.mk_mem_zipIdx_iff_getElem?.mp (List.mem_filter.mp he).1
  rw [Array.getElem?_toList] at hget
  simp [amountAt, hget]

theorem length_membersOf (r : Request) (script : Script) :
    (r.membersOf script).length =
      (r.coins.toList.filter fun c => c.script = script).length := by
  rw [← map_fst_filter_zipIdx, membersOf, List.length_map, List.length_map]

theorem eq_groupOf_of_mem {g : ScriptGroup} (hg : g ∈ r.scriptGroups) :
    g = r.groupOf g.script := by
  have hmembers := members_of_mem_scriptGroups hg
  have htotal : g.total = r.totalOf g.script := by
    obtain ⟨⟨script, members⟩, -, rfl⟩ := List.mem_map.mp hg
    have hfold :=
      foldl_unsignedAdd r.amountAt (r.membersOf script) 0 (Nat.zero_le _)
    simp only at hmembers ⊢
    rw [hmembers, hfold, Nat.zero_add, map_amountAt_membersOf, totalOf]
  calc
    g = ⟨g.script, g.members, g.total⟩ := rfl
    _ = r.groupOf g.script := by
      rw [hmembers, htotal]
      rfl

theorem map_script_scriptGroups (r : Request) :
    r.scriptGroups.map (·.script) = r.membersByScript.keys := by
  rw [scriptGroups, List.map_map, ← Std.TreeMap.map_fst_toList_eq_keys]
  rfl

theorem mem_scriptGroups_of_mem {coin : Coin} (hcoin : coin ∈ r.coins) :
    r.groupOf coin.script ∈ r.scriptGroups := by
  have hkey : coin.script ∈ r.membersByScript := by
    by_contra hout
    obtain ⟨i, hi⟩ := Array.mem_iff_getElem?.mp hcoin
    have hmember : i ∈ r.membersOf coin.script :=
      mem_membersOf.mpr ⟨coin, hi, rfl⟩
    have hnone := r.membersByScript_getD coin.script
    rw [Std.TreeMap.getD_eq_fallback hout] at hnone
    rw [List.reverse_eq_nil_iff.mp hnone.symm] at hmember
    cases hmember
  have hscript : coin.script ∈ r.scriptGroups.map (·.script) := by
    rw [map_script_scriptGroups]
    exact Std.TreeMap.mem_keys.mpr hkey
  obtain ⟨g, hg, hscript⟩ := List.mem_map.mp hscript
  rw [← hscript, ← eq_groupOf_of_mem hg]
  exact hg

theorem pairwise_scriptGroups (r : Request) :
    r.scriptGroups.Pairwise fun a b => a.script ≠ b.script := by
  rw [← List.pairwise_map (f := ScriptGroup.script) (R := (· ≠ ·)),
    map_script_scriptGroups]
  exact Std.TreeMap.nodup_keys

end Request
end ExactSpend
