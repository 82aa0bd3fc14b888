import Rkx.File
import Rkx.Lib.Words

/-!
# The last component of a path

`basename` of `libgen.h` looks for it from the end of the path, past trailing slashes.

* `lastName`: the last of the words between the slashes of a path;
* `basename_bytes`: `basename` finds it;
* `basename_sublist`: it is made of bytes of the path.
-/

set_option autoImplicit false

namespace Rkx

open Lib.CString Lib.Words

/-- The last component of a path; a path of slashes alone is the root. -/
def lastName (path : CStr) : List UInt8 := (words (· == slash) path.bytes).getLastD [slash]

/-- A path without trailing slashes ends with its last component. -/
theorem words_lastComponent {trimmed : List UInt8} {c : UInt8} (hlast : trimmed.getLast? = some c)
    (hc : c ≠ slash) : ∃ ws, words (· == slash) trimmed = ws ++ [lastComponent trimmed] := by
  have hsplit := List.takeWhile_append_dropWhile (p := (· ≠ slash)) (l := trimmed.reverse)
  have heq : trimmed = (trimmed.reverse.dropWhile (· ≠ slash)).reverse ++ lastComponent trimmed := by
    rw [lastComponent, ← List.reverse_append, hsplit, List.reverse_reverse]
  have hbefore : ∀ a ∈ (trimmed.reverse.dropWhile (· ≠ slash)).reverse.getLast?, (a == slash) = true := by
    intro a ha
    rw [List.getLast?_reverse] at ha
    have hhead := List.head?_dropWhile_not (· ≠ slash) trimmed.reverse
    rw [Option.mem_def.1 ha] at hhead
    simpa using hhead
  have hword : ∀ a ∈ lastComponent trimmed, (a == slash) = false := by
    intro a ha
    rw [lastComponent, List.mem_reverse] at ha
    simpa using List.mem_takeWhile_imp ha
  have hne : lastComponent trimmed ≠ [] := by
    rw [← List.head?_reverse] at hlast
    obtain ⟨rest, hrest⟩ := List.head?_eq_some_iff.1 hlast
    rw [lastComponent, hrest, List.takeWhile_cons_of_pos (by simpa using hc)]
    simp
  refine ⟨words (· == slash) (trimmed.reverse.dropWhile (· ≠ slash)).reverse, ?_⟩
  conv => lhs; rw [heq]
  exact words_append_run hbefore hword hne

/-- **`basename` finds the last component.** -/
theorem basename_bytes {path : CStr} (hpath : path.bytes ≠ []) : (basename path).bytes = lastName path := by
  have hsplit := List.takeWhile_append_dropWhile (p := (· = slash)) (l := path.bytes.reverse)
  have hslashes : ∀ a ∈ (path.bytes.reverse.takeWhile (· = slash)).reverse, (a == slash) = true := by
    intro a ha
    rw [List.mem_reverse] at ha
    simpa using List.mem_takeWhile_imp ha
  have hwords : words (· == slash) path.bytes =
      words (· == slash) (path.bytes.reverse.dropWhile (· = slash)).reverse := by
    rw [← words_append_of_pos hslashes (path.bytes.reverse.dropWhile (· = slash)).reverse,
      ← List.reverse_append, hsplit, List.reverse_reverse]
  unfold basename lastName
  rw [if_neg hpath, hwords]
  dsimp only
  cases htrim : path.bytes.reverse.dropWhile (· = slash) with
  | nil =>
    -- nothing but slashes
    rw [List.reverse_nil, if_pos rfl]
    rfl
  | cons c rest =>
    have hc : c ≠ slash := by
      have hhead := List.head?_dropWhile_not (· = slash) path.bytes.reverse
      rw [htrim] at hhead
      simpa using hhead
    have hlast : (c :: rest).reverse.getLast? = some c := by rw [List.getLast?_reverse, List.head?_cons]
    obtain ⟨ws, hws⟩ := words_lastComponent hlast hc
    have hmem : lastComponent (c :: rest).reverse ∈ words (· == slash) path.bytes := by
      rw [hwords, htrim, hws]
      exact List.mem_append_right _ List.mem_cons_self
    have hnul : (0 : UInt8) ∉ lastComponent (c :: rest).reverse := fun h =>
      path.noNul ((infix_of_mem_words hmem).subset h)
    rw [if_neg (by simp), CStr.ofMem_bytes_of_noNul hnul, hws, List.getLastD_concat]

/-- It is one of the words, unless there are only slashes. -/
theorem lastName_cases (path : CStr) :
    lastName path ∈ words (· == slash) path.bytes ∨
      words (· == slash) path.bytes = [] ∧ lastName path = [slash] := by
  unfold lastName
  rcases List.eq_nil_or_concat (words (· == slash) path.bytes) with h | ⟨ws, w, h⟩
  · rw [h]
    exact Or.inr ⟨rfl, rfl⟩
  · rw [h, List.concat_eq_append, List.getLastD_concat]
    exact Or.inl (List.mem_append_right _ List.mem_cons_self)

theorem basename_sublist {path : CStr} (hpath : path.bytes ≠ []) : (basename path).bytes.Sublist path.bytes := by
  rw [basename_bytes hpath]
  rcases lastName_cases path with hmem | ⟨hnil, hslash⟩
  · exact (infix_of_mem_words hmem).sublist
  · obtain ⟨c, hc⟩ := List.exists_mem_of_ne_nil _ hpath
    have hcslash : c = slash := by
      by_contra hne
      obtain ⟨w, hw, -⟩ := (mem_words (p := (· == slash)) path.bytes).2 ⟨hc, by simpa using hne⟩
      rw [hnil] at hw
      cases hw
    rw [hslash, List.singleton_sublist, ← hcslash]
    exact hc

theorem basename_ne_nil {path : CStr} (hpath : path.bytes ≠ []) : (basename path).bytes ≠ [] := by
  rw [basename_bytes hpath]
  rcases lastName_cases path with hmem | ⟨-, hslash⟩
  · exact ne_nil_of_mem_words hmem
  · rw [hslash]
    exact List.cons_ne_nil _ _

end Rkx
