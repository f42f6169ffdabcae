import Mathlib.Data.List.Infix
import ExactSpend.Proofs.Table.RoundTrip
import ExactSpend.Scenario

/-!
# Scenarios that are cut off

The first records of a table are the records of some prefix of its bytes, and
the first events of a scenario are the events of such a prefix.  A record ends
where the scanner stands between records, so the bytes are cut there.
-/

namespace ExactSpend

namespace Table

variable {s : Scanner}

/-- A scanner has the records of another one, or one more that has just
ended. -/
def Scanner.Follows (s t : Scanner) : Prop :=
  t.rows = s.rows ∨ t.standing = .between ∧ ∃ row, t.rows = s.rows.push row

theorem Scanner.follows_unquoted (s : Scanner) (b : UInt8) :
    s.Follows (s.unquoted b) := by
  unfold unquoted
  split
  · exact Or.inl rfl
  · split
    · exact Or.inr ⟨rfl, _, rfl⟩
    · exact Or.inl rfl

theorem Scanner.follows_step (s : Scanner) (b : UInt8) :
    s.Follows (s.step b) := by
  have hunquoted : s.Follows ((s.advance b).unquoted b) :=
    (s.advance b).follows_unquoted b
  unfold step
  dsimp only
  split
  · split
    · exact Or.inl rfl
    · split
      · exact Or.inl rfl
      · exact hunquoted
  · split
    · exact Or.inl rfl
    · exact hunquoted
  · exact hunquoted
  · split <;> exact Or.inl rfl
  · split
    · exact Or.inl rfl
    · exact hunquoted

/-- The first complete records are those of the bytes up to the end of a
record. -/
theorem Scanner.exists_front (hrows : s.rows = #[])
    (hstanding : s.standing = .between) (bytes : List UInt8) :
    ∀ n ≤ (bytes.foldl step s).rows.size,
      ∃ front, front <+: bytes ∧ (front.foldl step s).standing = .between ∧
        (front.foldl step s).rows.toList =
          (bytes.foldl step s).rows.toList.take n := by
  induction bytes using List.reverseRecOn with
  | nil =>
      intro n _
      refine ⟨[], List.nil_prefix, hstanding, ?_⟩
      simp [hrows]
  | append_singleton bytes b ih =>
      intro n hn
      rw [List.foldl_concat] at hn ⊢
      rcases (bytes.foldl step s).follows_step b with
          hsame | ⟨hends, row, hpush⟩
      · rw [hsame] at hn ⊢
        obtain ⟨front, hfront, h⟩ := ih n hn
        exact ⟨front, hfront.trans (List.prefix_append _ _), h⟩
      · rw [hpush] at hn ⊢
        rw [Array.size_push] at hn
        rcases Nat.lt_or_ge (bytes.foldl step s).rows.size n with hall | hle
        · refine ⟨bytes ++ [b], List.prefix_refl _, ?_, ?_⟩ <;>
            rw [List.foldl_concat]
          · exact hends
          · rw [hpush, List.take_of_length_le
              (by simpa [Nat.succ_le_iff] using hall)]
        · obtain ⟨front, hfront, hbetween, htake⟩ := ih n hle
          refine ⟨front, hfront.trans (List.prefix_append _ _), hbetween, ?_⟩
          rw [htake, Array.toList_push,
            List.take_append_of_le_length (by simpa using hle)]

/-- The records at the end are the complete ones and perhaps one that was
unfinished. -/
theorem Scanner.finish_cases (s : Scanner) :
    s.finish = s.rows.toList ∨ ∃ row, s.finish = s.rows.toList ++ [row] := by
  rw [finish]
  split
  · exact Or.inl rfl
  · exact Or.inr ⟨_, Array.toList_push⟩

theorem Scanner.exists_front_finish (hrows : s.rows = #[])
    (hstanding : s.standing = .between) (bytes : List UInt8) (n : ℕ) :
    ∃ front, front <+: bytes ∧
      (front.foldl step s).finish = (bytes.foldl step s).finish.take n := by
  rcases Nat.lt_or_ge (bytes.foldl step s).rows.size n with hlt | hle
  · refine ⟨bytes, List.prefix_refl _, (List.take_of_length_le ?_).symm⟩
    rcases (bytes.foldl step s).finish_cases with h | ⟨row, h⟩ <;> rw [h]
    · simpa using hlt.le
    · simpa [Nat.succ_le_iff] using hlt
  · obtain ⟨front, hfront, hbetween, htake⟩ :=
      exists_front hrows hstanding bytes n hle
    refine ⟨front, hfront, ?_⟩
    have hfinish :
        (front.foldl step s).finish = (front.foldl step s).rows.toList := by
      rw [finish, hbetween]
    rw [hfinish, htake]
    rcases (bytes.foldl step s).finish_cases with h | ⟨row, h⟩ <;> rw [h]
    rw [List.take_append_of_le_length (by simpa using hle)]

/-- The first records of a table are the records of a prefix of it. -/
theorem exists_prefix_rows (bytes : List UInt8) (n : ℕ) :
    ∃ front, front <+: bytes ∧ rows front = (rows bytes).take n := by
  by_cases hmark : ∃ rest, bytes = 0xEF :: 0xBB :: 0xBF :: rest
  · obtain ⟨rest, rfl⟩ := hmark
    obtain ⟨front, hfront, htake⟩ := Scanner.exists_front_finish
      (s := { here := ⟨0, 1, 3⟩ }) rfl rfl rest n
    refine ⟨0xEF :: 0xBB :: 0xBF :: front, ?_, htake⟩
    simpa only [List.prefix_cons_inj] using hfront
  · obtain ⟨front, hfront, htake⟩ :=
      Scanner.exists_front_finish (s := {}) rfl rfl bytes n
    refine ⟨front, hfront, ?_⟩
    rw [rows, rows]
    · exact htake
    · exact fun rest hrest => hmark ⟨rest, hrest⟩
    · rintro rest rfl
      obtain ⟨more, rfl⟩ := hfront
      exact hmark ⟨rest ++ more, rfl⟩

theorem checkLengths_take (rows : List Row) (n : ℕ) :
    checkLengths (rows.take n) = (checkLengths rows).take n := by
  cases rows with
  | nil => simp [checkLengths]
  | cons first rest =>
      cases n with
      | zero => rfl
      | succ n => simp [checkLengths, List.map_take]

end Table

/-- The first events of a scenario are the events of a prefix of its bytes. -/
theorem exists_prefix_scenarioRows (bytes : List UInt8) (n : ℕ) :
    ∃ front, front <+: bytes ∧
      scenarioRows front = (scenarioRows bytes).take n := by
  obtain ⟨front, hprefix, hrows⟩ := Table.exists_prefix_rows bytes n
  refine ⟨front, hprefix, ?_⟩
  rw [scenarioRows, scenarioRows, hrows, Table.checkLengths_take, List.map_take]

end ExactSpend
