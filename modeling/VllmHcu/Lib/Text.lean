import Mathlib.Data.List.Infix

/-!
# Names as lists of characters

Substring search and replacement as Python's `in` and `str.replace` do them.
-/

namespace VllmHcu

abbrev Text := List Char

/-- `pat in s` -/
def Text.has (pat : Text) : Text → Bool
  | [] => pat.isEmpty
  | c :: s => pat.isPrefixOf (c :: s) || Text.has pat s

/-- `s.replace(pat, new)` after `skip` characters of a match already replaced -/
def Text.replaceFrom (pat new : Text) : Nat → Text → Text
  | _, [] => []
  | 0, c :: s => if pat.isPrefixOf (c :: s) then new ++ replaceFrom pat new (pat.length - 1) s
    else c :: replaceFrom pat new 0 s
  | skip + 1, _ :: s => replaceFrom pat new skip s

/-- `s.replace(pat, new)` for a nonempty pattern -/
def Text.replace (pat new s : Text) : Text := replaceFrom pat new 0 s

theorem Text.has_iff {pat : Text} : ∀ {s : Text}, Text.has pat s = true ↔ pat <:+: s
  | [] => by
    unfold Text.has
    rw [List.isEmpty_iff, List.infix_nil]
  | c :: s => by
    unfold Text.has
    rw [Bool.or_eq_true, List.isPrefixOf_iff_prefix, Text.has_iff, List.infix_cons_iff]

theorem Text.has_replace {pat new : Text} {s : Text} (h : Text.has pat s = true) (hpat : pat ≠ []) :
    Text.has new (Text.replace pat new s) = true := by
  unfold Text.replace
  induction s with
  | nil =>
    unfold Text.has at h
    exact absurd (List.isEmpty_iff.mp h) hpat
  | cons c s ih =>
    unfold Text.replaceFrom
    by_cases hp : pat.isPrefixOf (c :: s) = true
    · rw [if_pos hp]
      exact Text.has_iff.mpr (List.prefix_append new _).isInfix
    · rw [if_neg hp]
      unfold Text.has at h
      rw [Bool.or_eq_true] at h
      have := ih (h.resolve_left hp)
      rw [Text.has_iff] at this ⊢
      exact this.trans (List.suffix_cons c _).isInfix

end VllmHcu
