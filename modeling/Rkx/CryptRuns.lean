import Mathlib.GroupTheory.FreeGroup.Reduce
import Rkx.Atomic
import Rkx.Lib.Cancel

/-!
# Runs of encryptions and decryptions

Calls of `kx_crypt_file` and `kx_decrypt_file` on any files and with any keys, all library calls succeeding.

* `cryptRun_file`: a file holds what the calls on it have made of it;
* `cryptRun_reduced`: what counts is the reduced word of the calls on it.
-/

set_option autoImplicit false

namespace Rkx

open Aes Lib.Blocks Lib.CString Lib.Stdio Lib.Cancel

def CryptCalls.full : CryptCalls := ⟨true, true, true, BlockCalls.full, ⟨true, true, 0⟩⟩

/-- A call on a path, with the key of the user. -/
structure CryptStep where
  path : CStr
  key : Key
  encrypts : Bool

/-- What the call leaves of a content: `kx_crypt_file` takes the key of the user, `kx_decrypt_file` is given it. -/
def cryptContent (XXH64 : List UInt8 → UInt64 → UInt64) (path : CStr) (x : List UInt8) (letter : Key × Bool) :
    List UInt8 :=
  if letter.2 then (kxCryptFile XXH64 CryptCalls.full path (some letter.1) x).2
  else (kxDecryptFile true BlockCalls.full x letter.1).2

section Runs

-- `XXH64`, and the file that a path names
variable (XXH64 : List UInt8 → UInt64 → UInt64) (names : CStr → Nat)

def CryptStep.exec (files : Nat → List UInt8) (s : CryptStep) : Nat → List UInt8 :=
  Function.update files (names s.path) (cryptContent XXH64 s.path (files (names s.path)) (s.key, s.encrypts))

/-- The calls in order. -/
def cryptRun (files : Nat → List UInt8) (steps : List CryptStep) : Nat → List UInt8 :=
  steps.foldl (CryptStep.exec XXH64 names) files

/-- The keys and directions of the calls on a file. -/
def wordOf (n : Nat) (steps : List CryptStep) : List (Key × Bool) :=
  (steps.filter fun s => names s.path = n).map fun s => (s.key, s.encrypts)

/-- A step on a content. -/
def cryptLetter (x : List UInt8) (letter : Key × Bool) : List UInt8 :=
  if letter.2 then encrypted letter.1 x else decrypted letter.1 x

theorem cryptContent_eq (path : CStr) {x : List UInt8} (hx : x.length ≤ MAXFILESIZE) (letter : Key × Bool) :
    cryptContent XXH64 path x letter = cryptLetter x letter := by
  unfold cryptContent cryptLetter
  split
  · rw [kxCryptFile_written XXH64 path letter.1 rfl hx rfl rfl]
    rfl
  · rfl

theorem length_cryptLetter (x : List UInt8) (letter : Key × Bool) :
    (cryptLetter x letter).length = (padded x).length := by
  have hlen : ∀ f : Block → Block,
      (mapBlocks 16 (cipherBlock f) (numBlocks 16 x.length) x).length = (padded x).length := by
    intro f
    rw [length_mapBlocks (by simp [cipherBlock]) (le_numBlocks_mul (by omega) _), length_padded]
    unfold numBlocks
    omega
  unfold cryptLetter
  split
  · rw [encrypted_eq, hlen]
  · rw [decrypted_eq, hlen]

/-- A content of whole blocks, short enough for `kx_crypt_file`. -/
structure Whole (x : List UInt8) : Prop where
  blocks : x.length % 16 = 0
  size : x.length ≤ MAXFILESIZE

theorem whole_padded {x : List UInt8} (hx : x.length ≤ MAXFILESIZE) : Whole (padded x) := by
  unfold MAXFILESIZE at hx
  have hlen := length_padded x
  exact ⟨by omega, by unfold MAXFILESIZE; omega⟩

theorem Whole.padded_eq {x : List UInt8} (h : Whole x) : padded x = x := (padded_eq_self_iff x).2 h.blocks

theorem whole_cryptLetter {x : List UInt8} (letter : Key × Bool) (hx : x.length ≤ MAXFILESIZE) :
    Whole (cryptLetter x letter) := by
  have h := whole_padded hx
  have hlen := length_cryptLetter x letter
  exact ⟨by rw [hlen]; exact h.blocks, by rw [hlen]; exact h.size⟩

/-- The call in the other direction leaves the padding alone. -/
theorem cryptLetter_cryptLetter (x : List UInt8) (key : Key) (b : Bool) :
    cryptLetter (cryptLetter x (key, b)) (key, !b) = padded x := by
  cases b
  · exact encrypted_decrypted key x
  · exact decrypted_encrypted key x

/-- **The first call** cannot tell a content from the padded one. -/
theorem cryptLetter_padded {x : List UInt8} (hx : x.length ≤ MAXFILESIZE) (letter : Key × Bool) :
    cryptLetter (padded x) letter = cryptLetter x letter := by
  obtain ⟨key, b⟩ := letter
  calc cryptLetter (padded x) (key, b)
      = cryptLetter (cryptLetter (cryptLetter x (key, b)) (key, !b)) (key, b) := by rw [cryptLetter_cryptLetter]
    _ = padded (cryptLetter x (key, b)) := by
      have h := cryptLetter_cryptLetter (cryptLetter x (key, b)) key (!b)
      rwa [Bool.not_not] at h
    _ = cryptLetter x (key, b) := (whole_cryptLetter _ hx).padded_eq

/-- **A word on a content**: what counts is the padded content and the reduced word. -/
theorem foldl_cryptLetter {x : List UInt8} (hx : x.length ≤ MAXFILESIZE) {w : List (Key × Bool)} (hw : w ≠ []) :
    w.foldl cryptLetter x = (FreeGroup.mk w).toWord.foldl cryptLetter (padded x) := by
  have hstart : w.foldl cryptLetter x = w.foldl cryptLetter (padded x) := by
    obtain ⟨l, w, rfl⟩ := List.exists_cons_of_ne_nil hw
    rw [List.foldl_cons, List.foldl_cons, cryptLetter_padded hx]
  rw [hstart]
  refine foldl_of_mk (fun y l hy => whole_cryptLetter l hy.size) ?_ FreeGroup.mk_toWord.symm (whole_padded hx)
  intro y key b hy
  rw [cryptLetter_cryptLetter, hy.padded_eq]

/-- **A file** holds what the calls on it have made of it. -/
theorem cryptRun_file (steps : List CryptStep) {files : Nat → List UInt8} (hfiles : ∀ n, (files n).length ≤ MAXFILESIZE)
    (n : Nat) : cryptRun XXH64 names files steps n = (wordOf names n steps).foldl cryptLetter (files n) := by
  induction steps generalizing files with
  | nil => rfl
  | cons s steps ih =>
    have hcontent := cryptContent_eq XXH64 s.path (hfiles (names s.path)) (s.key, s.encrypts)
    have hfiles' : ∀ n, (s.exec XXH64 names files n).length ≤ MAXFILESIZE := by
      intro n
      unfold CryptStep.exec
      rw [hcontent]
      obtain rfl | hne := eq_or_ne n (names s.path)
      · rw [Function.update_self]
        exact (whole_cryptLetter _ (hfiles _)).size
      · rw [Function.update_of_ne hne]
        exact hfiles n
    rw [cryptRun, List.foldl_cons]
    refine (ih hfiles').trans ?_
    unfold CryptStep.exec
    rw [hcontent]
    by_cases hn : names s.path = n
    · subst hn
      simp [wordOf]
    · simp [wordOf, hn, Function.update_of_ne (Ne.symm hn)]

end Runs

/-- **A file after a run** that touched it: the reduced word of the calls on it, on the padded content. The calls on other
    files do not matter, and two calls in a row that undo each other leave no trace. -/
theorem cryptRun_reduced (XXH64 : List UInt8 → UInt64 → UInt64) (names : CStr → Nat) (steps : List CryptStep)
    {files : Nat → List UInt8} (hfiles : ∀ n, (files n).length ≤ MAXFILESIZE) (n : Nat) :
    cryptRun XXH64 names files steps n =
      if wordOf names n steps = [] then files n
      else (FreeGroup.mk (wordOf names n steps)).toWord.foldl cryptLetter (padded (files n)) := by
  rw [cryptRun_file XXH64 names steps hfiles]
  split
  · rename_i hw
    rw [hw, List.foldl_nil]
  · rename_i hw
    exact foldl_cryptLetter (hfiles n) hw

/-- An encryption that is undone. -/
def undoneSteps : List CryptStep :=
  [⟨CStr.lit "a", Vector.replicate 16 0, true⟩, ⟨CStr.lit "a", Vector.replicate 16 0, false⟩]

theorem cryptRun_reduced_undone :
    cryptRun (fun _ _ => 1) (fun _ => 0) (fun _ => [65]) undoneSteps 0 =
      if wordOf (fun _ => 0) 0 undoneSteps = [] then [65]
      else (FreeGroup.mk (wordOf (fun _ => 0) 0 undoneSteps)).toWord.foldl cryptLetter (padded [65]) :=
  @cryptRun_reduced _ _ _ (fun _ => [65]) (fun _ => by unfold MAXFILESIZE; simp) 0

end Rkx
