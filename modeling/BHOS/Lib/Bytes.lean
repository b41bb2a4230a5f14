import Mathlib.Data.List.Nodup
import Mathlib.Logic.Function.Basic
import Mathlib.Tactic.IntervalCases

/-! # Bytes of a memory of words

A memory that holds a 32-bit word at every multiple of 4 is read and written byte by byte, the lowest
byte of a word first.  A byte that is written is read back, the other bytes and the other words are
as before; so it is with several bytes at different addresses. -/

namespace Bytes

/-- A byte of a word. -/
def byte (w : UInt32) (k : ℕ) : UInt8 := UInt8.ofNat (w.toNat / 256 ^ k)

/-- The word with another byte. -/
def replace (w : UInt32) (k : ℕ) (b : UInt8) : UInt32 :=
  UInt32.ofNat (w.toNat % 256 ^ k + 256 ^ k * b.toNat + 256 ^ (k + 1) * (w.toNat / 256 ^ (k + 1)))

/-- The address of the word in which a byte lies. -/
def wordAddr (a : UInt32) : UInt32 := UInt32.ofNat (a.toNat / 4 * 4)

variable (m : UInt32 → UInt32)

def read (a : UInt32) : UInt8 := byte (m (wordAddr a)) (a.toNat % 4)

def write (a : UInt32) (b : UInt8) : UInt32 → UInt32 :=
  Function.update m (wordAddr a) (replace (m (wordAddr a)) (a.toNat % 4) b)

/-- Several bytes, one after the other. -/
def writes (l : List (UInt32 × UInt8)) : UInt32 → UInt32 :=
  l.foldl (fun m x => write m x.1 x.2) m

variable {m} {a a' x w : UInt32} {b : UInt8} {k k' : ℕ} {l : List (UInt32 × UInt8)}

theorem wordAddr_toNat (a : UInt32) : (wordAddr a).toNat = a.toNat / 4 * 4 := by
  have h := a.toNat_lt
  rw [wordAddr, UInt32.toNat_ofNat']
  exact Nat.mod_eq_of_lt (by omega)

theorem byte_toNat (w : UInt32) (k : ℕ) : (byte w k).toNat = w.toNat / 256 ^ k % 256 :=
  UInt8.toNat_ofNat'

theorem replace_toNat (hk : k < 4) : (replace w k b).toNat =
    w.toNat % 256 ^ k + 256 ^ k * b.toNat + 256 ^ (k + 1) * (w.toNat / 256 ^ (k + 1)) := by
  have hw := w.toNat_lt
  have hb := b.toNat_lt
  rw [replace, UInt32.toNat_ofNat']
  apply Nat.mod_eq_of_lt
  interval_cases k <;> simp only [Nat.reducePow, Nat.reduceAdd] <;> omega

theorem byte_replace_self (hk : k < 4) : byte (replace w k b) k = b := by
  have hb := b.toNat_lt
  rw [← UInt8.toNat_inj, byte_toNat, replace_toNat hk]
  interval_cases k <;> simp only [Nat.reducePow, Nat.reduceAdd] <;> omega

theorem byte_replace_of_ne (hk : k < 4) (hk' : k' < 4) (hne : k' ≠ k) :
    byte (replace w k b) k' = byte w k' := by
  have hb := b.toNat_lt
  rw [← UInt8.toNat_inj, byte_toNat, byte_toNat, replace_toNat hk]
  interval_cases k <;> interval_cases k' <;> simp only [Nat.reducePow, Nat.reduceAdd] <;> omega

/-- Two bytes of the same word are told apart by their places in it. -/
theorem mod_ne_of_wordAddr (h : wordAddr a = wordAddr a') (hne : a ≠ a') :
    a.toNat % 4 ≠ a'.toNat % 4 := by
  intro e
  have h' := congrArg UInt32.toNat h
  rw [wordAddr_toNat, wordAddr_toNat] at h'
  exact hne (UInt32.toNat_inj.mp (by omega))

theorem read_write_self : read (write m a b) a = b := by
  rw [read, write, Function.update_self]
  exact byte_replace_self (Nat.mod_lt _ (by decide))

theorem read_write_of_ne (hne : a' ≠ a) : read (write m a b) a' = read m a' := by
  unfold read write
  by_cases h : wordAddr a' = wordAddr a
  · rw [h, Function.update_self]
    exact byte_replace_of_ne (Nat.mod_lt _ (by decide)) (Nat.mod_lt _ (by decide))
      (mod_ne_of_wordAddr h hne)
  · rw [Function.update_of_ne h]

theorem write_of_ne (hne : x ≠ wordAddr a) : write m a b x = m x := Function.update_of_ne hne _ _

/-- The words in which nothing is written. -/
theorem writes_of_ne (h : ∀ y ∈ l, x ≠ wordAddr y.1) : writes m l x = m x := by
  induction l generalizing m with
  | nil => rfl
  | cons y l ih =>
      have hrest := ih (m := write m y.1 y.2) fun z hz => h z (List.mem_cons_of_mem y hz)
      exact hrest.trans (write_of_ne (h y List.mem_cons_self))

theorem read_writes_of_ne (h : ∀ y ∈ l, a ≠ y.1) : read (writes m l) a = read m a := by
  induction l generalizing m with
  | nil => rfl
  | cons y l ih =>
      have hrest := ih (m := write m y.1 y.2) fun z hz => h z (List.mem_cons_of_mem y hz)
      exact hrest.trans (read_write_of_ne (h y List.mem_cons_self))

/-- A byte that is written once is read back. -/
theorem read_writes_of_mem (hnd : (l.map Prod.fst).Nodup) (h : (a, b) ∈ l) :
    read (writes m l) a = b := by
  induction l generalizing m with
  | nil => exact absurd h List.not_mem_nil
  | cons y l ih =>
      rw [List.map_cons, List.nodup_cons] at hnd
      rcases List.mem_cons.mp h with rfl | h
      · have hrest : ∀ z ∈ l, a ≠ z.1 := by
          rintro z hz rfl
          exact hnd.1 (List.mem_map.mpr ⟨z, hz, rfl⟩)
        exact (read_writes_of_ne (m := write m a b) hrest).trans read_write_self
      · exact ih (m := write m y.1 y.2) hnd.2 h

end Bytes
