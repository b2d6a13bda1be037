/-!
# Ranges of code points

Properties of the Unicode standard are given as sorted lists of inclusive ranges. Because the ranges
are sorted, a search may stop at the first range that starts beyond the code point looked for. The tables
tell by turns how many code points lack a property and how many have it.
-/
namespace JarRemap.Text

/-- The ranges that are told by the lengths of the gaps in front of them and their own lengths, from the
code point `start` on. -/
def rangesFrom (start : Nat) : List Nat → List (Nat × Nat)
  | gap :: length :: later =>
    (start + gap, start + gap + length - 1) :: rangesFrom (start + gap + length) later
  | _ => []

/-- Whether `point` lies in one of the ranges. The ranges are inclusive, disjoint and sorted, so a
range that starts after `point` ends the search. -/
def covered (point : Nat) : List (Nat × Nat) → Bool
  | [] => false
  | (first, last) :: later =>
    if point < first then false else point ≤ last || covered point later

end JarRemap.Text
