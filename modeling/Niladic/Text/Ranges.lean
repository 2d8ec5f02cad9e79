namespace Niladic.Text

abbrev Ranges := List (Nat × Nat)

def Ranges.has : Ranges → Nat → Bool
  | [], _ => false
  | (low, high) :: rest, n => if n < low then false else decide (n ≤ high) || Ranges.has rest n

theorem Ranges.exists_of_has {n : Nat} : ∀ {table : Ranges}, table.has n = true →
    ∃ r ∈ table, r.1 ≤ n ∧ n ≤ r.2
  | [], h => by simp [Ranges.has] at h
  | (low, high) :: rest, h => by
      by_cases hlow : n < low
      · simp [Ranges.has, hlow] at h
      · simp only [Ranges.has, hlow, if_false, Bool.or_eq_true, decide_eq_true_eq] at h
        rcases h with h | h
        · exact ⟨(low, high), by simp, by simpa using hlow, h⟩
        · obtain ⟨r, hr, hn⟩ := Ranges.exists_of_has h
          exact ⟨r, by simp [hr], hn⟩

end Niladic.Text
