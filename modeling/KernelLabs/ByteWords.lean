import Mathlib.Data.UInt
import Mathlib.Logic.Function.Basic
import Mathlib.Tactic.NormNum

/-!
32-bit words in little-endian order in an array of bytes. A word that is stored is
read back at its own index, and the other words are as before.
-/
namespace KernelLabs.ByteWords

open Function

variable {n : ℕ}

def place (j : Fin n) (r : Fin 4) : Fin (4 * n) := ⟨4 * j + r, by omega⟩

def word (a : Fin (4 * n) → UInt8) (j : Fin n) : ℕ :=
  (a (place j 0)).toNat + 256 * (a (place j 1)).toNat + 65536 * (a (place j 2)).toNat +
    16777216 * (a (place j 3)).toNat

def setWord (a : Fin (4 * n) → UInt8) (j : Fin n) (v : ℕ) : Fin (4 * n) → UInt8 := fun p =>
  if p.val / 4 = j then UInt8.ofNat (v / 256 ^ (p.val % 4)) else a p

variable {a : Fin (4 * n) → UInt8} {j j' : Fin n} {v : ℕ}

theorem place_div (j : Fin n) (r : Fin 4) : (place j r).val / 4 = j := by
  simp only [place]
  omega

theorem place_mod (j : Fin n) (r : Fin 4) : (place j r).val % 4 = r := by
  simp only [place]
  omega

theorem setWord_place_self (r : Fin 4) :
    (setWord a j v (place j r)).toNat = v / 256 ^ r.val % 256 := by
  rw [setWord, if_pos (place_div j r), place_mod]
  simp

theorem setWord_place_ne (hne : j' ≠ j) (r : Fin 4) :
    setWord a j v (place j' r) = a (place j' r) := by
  rw [setWord, place_div, if_neg (fun h => hne (Fin.ext h))]

theorem word_setWord_self (hv : v < 2 ^ 32) : word (setWord a j v) j = v := by
  simp only [word, setWord_place_self]
  norm_num
  omega

theorem word_setWord_ne (hne : j' ≠ j) : word (setWord a j v) j' = word a j' := by
  simp only [word, setWord_place_ne hne]

/-- The words of an array in which one word is stored. -/
theorem word_setWord (hv : v < 2 ^ 32) : word (setWord a j v) = update (word a) j v := by
  funext j'
  by_cases hne : j' = j
  · subst hne
    rw [word_setWord_self hv, update_self]
  · rw [word_setWord_ne hne, update_of_ne hne]

theorem word_zero : word (fun _ : Fin (4 * n) => 0) = fun _ => 0 := by
  funext j
  simp [word]

end KernelLabs.ByteWords
