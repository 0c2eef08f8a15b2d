import HuskyKernel.System.Bytes
import Mathlib.Data.List.Basic

/-!
# Drivers/Keyboard — reading keys from the PS/2 controller

A scan code is looked up in `scancode_to_ascii` as it comes, the code of a key that is released
like the code of one that is pressed.  The table has an entry for the latter only: what the former
looks up lies behind it.
-/

namespace HuskyKernel

/-- `scancode_to_ascii`; behind the characters stand the special keys, 1 to 8. -/
def scancodeToAscii : List Byte :=
  [0, 1] ++ str "1234567890-=" ++ [2] ++ str " qwertyuiop[]" ++ [4, 5] ++ str "asdfghjkl;'`" ++
    [6] ++ str "\\zxcvbnm,./" ++ [7] ++ str "*" ++ [8] ++ str " " ++ List.replicate 70 0

theorem length_scancodeToAscii : scancodeToAscii.length = 128 := by decide +kernel

/-- What the controller has for its driver: the values of its status register until a byte is there,
the value from then on, and the byte.  It comes before `ps2_keyboard_wait_for_input` gives up. -/
structure Arrival where
  waiting : List Byte
  full : Byte
  code : Byte
  notYet : ∀ b ∈ waiting, b &&& 1 = 0
  isFull : full &&& 1 ≠ 0
  inTime : waiting.length < 10000

/-- The controller, and the indices at which `scancode_to_ascii` has been read. -/
structure Ps2 where
  arrivals : List Arrival
  reads : List ℕ

namespace Ps2

/-- `inb(PS2_STATUS_PORT)`. -/
def inbStatus (k : Ps2) : Byte × Ps2 :=
  match k.arrivals with
  | [] => (0, k)
  | a :: as =>
    match h : a.waiting with
    | [] => (a.full, k)
    | b :: bs =>
      (b, { k with arrivals := { a with
        waiting := bs
        notYet := fun c hc => a.notYet c (h ▸ List.mem_cons_of_mem b hc)
        inTime := by
          have hlt := a.inTime
          rw [h, List.length_cons] at hlt
          exact Nat.lt_of_succ_lt hlt } :: as })

/-- `inb(PS2_DATA_PORT)`. -/
def inbData (k : Ps2) : Byte × Ps2 :=
  match k.arrivals with
  | [] => (0, k)
  | a :: as => (a.code, { k with arrivals := as })

/-- `while (timeout--) if (inb(PS2_STATUS_PORT) & PS2_STATUS_OUTPUT_FULL) return true;` -/
def waitN : ℕ → Ps2 → Bool × Ps2
  | 0, k => (false, k)
  | n + 1, k =>
      let (status, k) := k.inbStatus
      if status &&& 1 ≠ 0 then (true, k) else waitN n k

/-- `ps2_keyboard_wait_for_input`. -/
def ps2KeyboardWaitForInput : Ps2 → Bool × Ps2 := waitN 10000

variable (beyond : Byte → Byte)

/-- `scancode_to_ascii[code]`; `beyond` is what lies behind the table. -/
def lookup (code : Byte) : Byte :=
  if code.toNat < scancodeToAscii.length then scancodeToAscii.getD code.toNat 0 else beyond code

/-- `ps2_keyboard_read_data`. -/
def ps2KeyboardReadData (k : Ps2) : Byte × Ps2 :=
  let (ready, k) := k.ps2KeyboardWaitForInput
  if ready then
    let (code, k) := k.inbData
    (lookup beyond code, { k with reads := k.reads ++ [code.toNat] })
  else (0, k)

/-- `keyboard_read_key`; `usbKey` is what `usb_keyboard_read_key` returns if there is a device. -/
def keyboardReadKey (usbKey : Option Byte) (k : Ps2) : Byte × Ps2 :=
  match usbKey with
  | some key => (key, k)
  | none => k.ps2KeyboardReadData beyond

/-- The keys of `n` calls without a USB keyboard. -/
def readKeys : ℕ → Ps2 → List Byte × Ps2
  | 0, k => ([], k)
  | n + 1, k =>
      let (key, k) := k.keyboardReadKey beyond none
      let (keys, k) := readKeys n k
      (key :: keys, k)

/-! ## A byte that is there -/

variable {beyond : Byte → Byte} {a : Arrival} {as : List Arrival} {r : List ℕ} {n : ℕ}

/-- The driver waits until the byte is there. -/
theorem waitN_cons (as : List Arrival) (h : a.waiting.length < n) :
    ∃ a', a'.code = a.code ∧ waitN n ⟨a :: as, r⟩ = (true, ⟨a' :: as, r⟩) := by
  induction n generalizing a with
  | zero => exact absurd h (Nat.not_lt_zero _)
  | succ n ih =>
    obtain ⟨waiting, full, code, notYet, isFull, inTime⟩ := a
    cases waiting with
    | nil => exact ⟨_, rfl, if_pos isFull⟩
    | cons b bs =>
      obtain ⟨a', hcode, ha'⟩ := ih (a := ⟨bs, full, code,
        fun c hc => notYet c (List.mem_cons_of_mem b hc), isFull, Nat.lt_of_succ_lt inTime⟩)
        (Nat.lt_of_succ_lt_succ h)
      have hclear : ¬ b &&& 1 ≠ 0 := not_not.mpr (notYet b List.mem_cons_self)
      exact ⟨a', hcode, (if_neg hclear).trans ha'⟩

/-- **A call takes one byte and looks it up.** -/
theorem keyboardReadKey_cons : keyboardReadKey beyond none ⟨a :: as, r⟩ =
    (lookup beyond a.code, ⟨as, r ++ [a.code.toNat]⟩) := by
  obtain ⟨a', hcode, ha'⟩ := waitN_cons (r := r) as a.inTime
  rw [keyboardReadKey, ps2KeyboardReadData, ps2KeyboardWaitForInput, ha', ← hcode]
  rfl

/-- With no byte to come, no poll finds one. -/
theorem waitN_nil : ∀ n, waitN n ⟨[], r⟩ = (false, ⟨[], r⟩)
  | 0 => rfl
  | n + 1 => waitN_nil n

theorem keyboardReadKey_nil : keyboardReadKey beyond none ⟨[], r⟩ = (0, ⟨[], r⟩) := by
  rw [keyboardReadKey, ps2KeyboardReadData, ps2KeyboardWaitForInput, waitN_nil]
  rfl

/-! ## A stream of bytes -/

/-- The keys of `n` calls are the bytes, looked up one by one, and then none. -/
theorem readKeys_eq : readKeys beyond n ⟨as, r⟩ =
    ((as.take n).map (fun a => lookup beyond a.code) ++ List.replicate (n - as.length) 0,
      ⟨as.drop n, r ++ (as.take n).map fun a => a.code.toNat⟩) := by
  induction n generalizing as r with
  | zero => simp [readKeys]
  | succ n ih =>
    cases as with
    | nil =>
      simp only [readKeys, keyboardReadKey_nil, ih]
      simp [List.replicate_succ]
    | cons a as =>
      simp only [readKeys, keyboardReadKey_cons, ih]
      simp

/-- What decoding a stream means: the keys are the characters of the make codes, a break code gives
no key, and the table is read inside its bounds. -/
def Decodes (beyond : Byte → Byte) (as : List Arrival) : Prop :=
  ∀ n, (readKeys beyond n ⟨as, []⟩).1.filter (· ≠ 0) =
      ((((as.take n).map (·.code)).filter (· < 0x80)).map
        fun c => scancodeToAscii.getD c.toNat 0).filter (· ≠ 0) ∧
    ∀ i ∈ (readKeys beyond n ⟨as, []⟩).2.reads, i < scancodeToAscii.length

/-- A make code is the index of an entry. -/
theorem lt_length_iff {c : Byte} : c.toNat < scancodeToAscii.length ↔ c < 0x80 := by
  rw [length_scancodeToAscii, UInt8.lt_iff_toNat_lt]
  rfl

theorem lookup_of_lt {c : Byte} (h : c < 0x80) :
    lookup beyond c = scancodeToAscii.getD c.toNat 0 := by
  rw [lookup, if_pos (lt_length_iff.mpr h)]

theorem make_of_decodes (h : Decodes beyond as) : ∀ a ∈ as, a.code < 0x80 := by
  intro a ha
  refine lt_length_iff.mp ((h as.length).2 _ ?_)
  rw [readKeys_eq, List.take_length, List.nil_append]
  exact List.mem_map_of_mem ha

/-- **A stream is decoded exactly if it has no break code.** -/
theorem decodes_iff : Decodes beyond as ↔ ∀ a ∈ as, a.code < 0x80 := by
  refine ⟨make_of_decodes, fun h n => ?_⟩
  have htake : ∀ a ∈ as.take n, a.code < 0x80 := fun a ha => h a (List.mem_of_mem_take ha)
  rw [readKeys_eq]
  constructor
  · have hmake : ((as.take n).map (·.code)).filter (· < 0x80) = (as.take n).map (·.code) := by
      refine List.filter_eq_self.mpr fun c hc => ?_
      obtain ⟨a, ha, rfl⟩ := List.mem_map.mp hc
      exact decide_eq_true (htake a ha)
    have hnone : (List.replicate (n - as.length) (0 : Byte)).filter (· ≠ 0) = [] :=
      List.filter_eq_nil_iff.mpr fun c hc => by simp [List.eq_of_mem_replicate hc]
    rw [hmake, List.filter_append, hnone, List.append_nil, List.map_map]
    exact congrArg _ (List.map_congr_left fun a ha => lookup_of_lt (htake a ha))
  · intro i hi
    obtain ⟨a, ha, rfl⟩ := List.mem_map.mp hi
    exact lt_length_iff.mpr (htake a ha)

/-- A byte that is there at once. -/
def Arrival.now (code : Byte) : Arrival :=
  ⟨[], 1, code, fun _ h => absurd h List.not_mem_nil, by decide, by decide⟩

/-- The key A, pressed and released. -/
theorem not_decodes_break : ¬ Decodes (fun _ => 0) [Arrival.now 0x1e, Arrival.now 0x9e] := by
  intro h
  have hmake := make_of_decodes h (Arrival.now 0x9e) (List.mem_cons_of_mem _ List.mem_cons_self)
  exact absurd hmake (by decide)

end Ps2

end HuskyKernel
