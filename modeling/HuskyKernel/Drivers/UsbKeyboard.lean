import HuskyKernel.Drivers.Pci

/-!
# Drivers/UsbKeyboard — looking for a USB keyboard

`usb_keyboard_init` goes through `usb_devices`, which has 128 entries, and counts them in a
`uint8_t` that it compares with 256.  It returns at the first keyboard, and nowhere else: without
one in the table it reads on behind it.  `finds_iff`: the search is right for the tables with a
keyboard in them.
-/

namespace HuskyKernel

open Pci (Message)

/-- `sizeof(usb_device_t)`. -/
def usbDeviceSize : ℕ := 134

/-- The length of `usb_devices`. -/
def maxUsbDevices : ℕ := 128

/-- `usb_keyboard_device`, the indices `usb_keyboard_init` reads `usb_devices` at, and what has been
printed. -/
structure UsbKeyboard where
  usbKeyboardDevice : Word
  reads : List ℕ
  printed : List Message

namespace UsbKeyboard

section Search

variable (m : Mem) (usbDevices : Word)

/-- `&usb_devices[i]`. -/
def device (i : ℕ) : Word := usbDevices + BitVec.ofNat 32 (usbDeviceSize * i)

/-- The class, subclass and protocol of a HID boot keyboard. -/
def IsKeyboard (device : Word) : Prop :=
  m (device + 1) = 0x03 ∧ m (device + 2) = 0x01 ∧ m (device + 3) = 0x01

instance (device : Word) : Decidable (IsKeyboard m device) :=
  inferInstanceAs (Decidable (_ ∧ _ ∧ _))

/-- The entry with index `i` is looked at. -/
def look (i : ℕ) (k : UsbKeyboard) : UsbKeyboard := { k with reads := k.reads ++ [i] }

/-- The keyboard is there. -/
def found (device : Word) (k : UsbKeyboard) : UsbKeyboard :=
  { k with
    usbKeyboardDevice := device
    printed := k.printed ++ [⟨str "USB Keyboard Found at Address: %d\n", [(m device).toNat]⟩] }

/-- The loop, for at most `n` rounds.  `i < 256` always holds of a `uint8_t`, so that the
`return false` behind the loop is not reached. -/
def searchLoop : ℕ → Byte → UsbKeyboard → Option Bool × UsbKeyboard
  | 0, _, k => (none, k)
  | n + 1, i, k =>
      let k := k.look i.toNat
      if IsKeyboard m (device usbDevices i.toNat) then
        (some true, k.found m (device usbDevices i.toNat))
      else searchLoop n (i + 1) k

/-- `usb_keyboard_init`: what it returns, if it does within `fuel` rounds. -/
def usbKeyboardInit (fuel : ℕ) (k : UsbKeyboard) : Option Bool × UsbKeyboard :=
  searchLoop m usbDevices fuel 0 { k with reads := [] }

/-- The first keyboard in the table. -/
def first : Option ℕ :=
  (List.range maxUsbDevices).find? fun i => IsKeyboard m (device usbDevices i)

/-- The search returns, inside the table, and says whether there is a keyboard and which is the
first. -/
def Finds (k : UsbKeyboard) : Prop :=
  ∃ fuel r t, usbKeyboardInit m usbDevices fuel k = (some r, t) ∧
    (∀ i ∈ t.reads, i < maxUsbDevices) ∧
    (r = true ↔ ∃ i < maxUsbDevices, IsKeyboard m (device usbDevices i)) ∧
    t.usbKeyboardDevice = (first m usbDevices).elim k.usbKeyboardDevice (device usbDevices)

end Search

variable {m : Mem} {usbDevices : Word} {k t : UsbKeyboard} {i j n : ℕ} {r : Bool}

theorem searchLoop_succ (hi : i < 256) : searchLoop m usbDevices (n + 1) (UInt8.ofNat i) k =
    if IsKeyboard m (device usbDevices i) then
      (some true, (k.look i).found m (device usbDevices i))
    else searchLoop m usbDevices n (UInt8.ofNat (i + 1)) (k.look i) := by
  have hnext : UInt8.ofNat i + 1 = UInt8.ofNat (i + 1) := (UInt8.ofNat_add i 1).symm
  have hindex : (UInt8.ofNat i).toNat = i := by
    rw [UInt8.toNat_ofNat']
    exact Nat.mod_eq_of_lt hi
  rw [searchLoop, hindex, hnext]

/-! ## With a keyboard -/

/-- **The loop ends at the first keyboard**, and has read the entries up to it. -/
theorem searchLoop_eq (hi : i ≤ j) (hlt : j < 256)
    (hfirst : ∀ l, i ≤ l → l < j → ¬ IsKeyboard m (device usbDevices l))
    (hj : IsKeyboard m (device usbDevices j)) (hn : j < i + n) :
    ∃ t, searchLoop m usbDevices n (UInt8.ofNat i) k = (some true, t) ∧
      t.usbKeyboardDevice = device usbDevices j ∧ ∀ l ∈ t.reads, l ∈ k.reads ∨ l ≤ j := by
  induction n generalizing i k with
  | zero => exact absurd hn (not_lt.mpr hi)
  | succ n ih =>
    have hlook : ∀ {l : ℕ}, l ∈ (k.look i).reads → l ∈ k.reads ∨ l = i := fun hl =>
      (List.mem_append.mp hl).imp_right List.mem_singleton.mp
    rw [searchLoop_succ (hi.trans_lt hlt)]
    rcases Nat.lt_or_eq_of_le hi with hij | rfl
    · rw [if_neg (hfirst i (Nat.le_refl i) hij)]
      obtain ⟨t, hrun, hdevice, hreads⟩ :=
        ih (k := k.look i) hij (fun l hl => hfirst l (Nat.le_of_succ_le hl)) (by omega)
      refine ⟨t, hrun, hdevice, fun l hl => ?_⟩
      rcases hreads l hl with hold | hle
      · exact (hlook hold).imp_right fun h => h.le.trans hi
      · exact Or.inr hle
    · rw [if_pos hj]
      exact ⟨_, rfl, rfl, fun l hl => (hlook hl).imp_right Nat.le_of_eq⟩

theorem first_eq_some (h : ∃ i < maxUsbDevices, IsKeyboard m (device usbDevices i)) :
    ∃ i < maxUsbDevices, first m usbDevices = some i ∧ IsKeyboard m (device usbDevices i) ∧
      ∀ l < i, ¬ IsKeyboard m (device usbDevices l) := by
  obtain ⟨i, hi, hkey⟩ := h
  have hsome : (first m usbDevices).isSome :=
    List.find?_isSome.mpr ⟨i, List.mem_range.mpr hi, decide_eq_true hkey⟩
  obtain ⟨j, hj⟩ := Option.isSome_iff_exists.mp hsome
  obtain ⟨hkeyj, hlt, hbefore⟩ := List.find?_range_eq_some.mp hj
  refine ⟨j, List.mem_range.mp hlt, hj, of_decide_eq_true hkeyj, fun l hl hkeyl => ?_⟩
  exact absurd (decide_eq_true hkeyl) (by simpa using hbefore l hl)

/-! ## Without one -/

theorem reads_searchLoop (h : searchLoop m usbDevices n (UInt8.ofNat i) k = (some r, t))
    (hl : j ∈ k.reads) : j ∈ t.reads := by
  induction n generalizing i k with
  | zero => cases h
  | succ n ih =>
    have hlook : j ∈ (k.look (UInt8.ofNat i).toNat).reads := List.mem_append_left _ hl
    rw [searchLoop] at h
    split_ifs at h
    · cases h
      exact hlook
    · rw [show UInt8.ofNat i + 1 = UInt8.ofNat (i + 1) from (UInt8.ofNat_add i 1).symm] at h
      exact ih h hlook

/-- **Without a keyboard in it, the loop leaves the table** before it returns. -/
theorem leaves_table (hi : i ≤ maxUsbDevices)
    (hnone : ∀ l < maxUsbDevices, ¬ IsKeyboard m (device usbDevices l))
    (h : searchLoop m usbDevices n (UInt8.ofNat i) k = (some r, t)) : maxUsbDevices ∈ t.reads := by
  induction n generalizing i k with
  | zero => cases h
  | succ n ih =>
    have hlt : i < 256 := Nat.lt_of_le_of_lt hi (by decide)
    rcases Nat.lt_or_eq_of_le hi with hin | rfl
    · rw [searchLoop_succ hlt, if_neg (hnone i hin)] at h
      exact ih hin h
    · have hlook : maxUsbDevices ∈ (k.look maxUsbDevices).reads :=
        List.mem_append_right _ (List.mem_singleton.mpr rfl)
      rw [searchLoop_succ hlt] at h
      split_ifs at h
      · cases h
        exact hlook
      · exact reads_searchLoop h hlook

theorem not_finds_of_none (hnone : ∀ l < maxUsbDevices, ¬ IsKeyboard m (device usbDevices l)) :
    ¬ Finds m usbDevices k := by
  rintro ⟨fuel, r, t, hrun, hreads, -⟩
  exact Nat.lt_irrefl _ (hreads _ (leaves_table (Nat.zero_le _) hnone hrun))

/-! ## Both -/

/-- **The search is right for the tables with a keyboard in them.** -/
theorem finds_iff (m : Mem) (usbDevices : Word) (k : UsbKeyboard) :
    Finds m usbDevices k ↔ ∃ i < maxUsbDevices, IsKeyboard m (device usbDevices i) := by
  constructor
  · intro h
    by_contra hnone
    exact not_finds_of_none (fun l hl hkey => hnone ⟨l, hl, hkey⟩) h
  · intro h
    obtain ⟨i, hi, hfirst, hkey, hbefore⟩ := first_eq_some h
    obtain ⟨t, hrun, hdevice, hreads⟩ := searchLoop_eq (k := { k with reads := [] }) (n := i + 1)
      (Nat.zero_le i) (hi.trans (by decide)) (fun l _ => hbefore l) hkey (by omega)
    refine ⟨i + 1, true, t, hrun, fun l hl => ?_, iff_of_true rfl h, ?_⟩
    · rcases hreads l hl with hold | hle
      · exact absurd hold List.not_mem_nil
      · exact hle.trans_lt hi
    · rw [hdevice, hfirst]
      rfl

/-- An empty table, in memory that is empty. -/
theorem not_finds_empty : ¬ Finds (fun _ => 0) 0x100000 ⟨0, [], []⟩ :=
  not_finds_of_none fun _ _ h => absurd (show (0 : Byte) = 0x03 from h.1) (by decide)

end UsbKeyboard

end HuskyKernel
