/-!
# XsdSynthesis.Text.Ranges

Sets of code points as ascending lists of closed ranges, and the membership test that stops
at the first range beyond the code point it looks for.
-/

namespace XsdSynthesis
namespace Text

/-- A set of code points: closed ranges in ascending order. -/
abbrev Ranges := List (Nat × Nat)

/-- Each range is not empty and lies below the ranges that follow it. -/
def Ranges.Ascending : Ranges → Prop
  | [] => True
  | (lo, hi) :: rest => lo ≤ hi ∧ (∀ r ∈ rest, hi < r.1) ∧ Ranges.Ascending rest

/-- Whether a code point lies in one of the ranges. -/
def Ranges.contains : Ranges → Nat → Bool
  | [], _ => false
  | (lo, hi) :: rest, n => lo ≤ n && (n ≤ hi || Ranges.contains rest n)

theorem Ranges.exists_of_contains {rs : Ranges} {n : Nat} (h : rs.contains n = true) :
    ∃ r ∈ rs, r.1 ≤ n ∧ n ≤ r.2 := by
  induction rs with
  | nil => simp [Ranges.contains] at h
  | cons r rest ih =>
    simp only [Ranges.contains, Bool.and_eq_true, Bool.or_eq_true, decide_eq_true_eq] at h
    rcases h.2 with hn | hn
    · exact ⟨r, by simp, h.1, hn⟩
    · obtain ⟨s, hs, hb⟩ := ih hn
      exact ⟨s, by simp [hs], hb⟩

/-- In an ascending list the early stop loses nothing. -/
theorem Ranges.contains_of_mem {rs : Ranges} {n : Nat} (ha : rs.Ascending) {r : Nat × Nat}
    (hr : r ∈ rs) (hb : r.1 ≤ n ∧ n ≤ r.2) : rs.contains n = true := by
  induction rs with
  | nil => simp at hr
  | cons s rest ih =>
    obtain ⟨hs, hlt, hrest⟩ := ha
    simp only [Ranges.contains, Bool.and_eq_true, Bool.or_eq_true, decide_eq_true_eq]
    rcases List.mem_cons.1 hr with rfl | hm
    · exact ⟨hb.1, .inl hb.2⟩
    · have := hlt r hm
      exact ⟨by omega, .inr (ih hrest hm)⟩

end Text
end XsdSynthesis
