import HuskyKernel.Drivers.ConfigPorts

/-!
# Drivers/Usb — looking for a USB host controller

`detect_usb_host_controller` goes through the functions of every bus and returns at the first one of
the right class.  It reads their registers through `pci_read_config`, a byte at a time, so that no
function ever has a class; and its outer loop counts buses in a `uint8_t` and compares it with 256.
`not_detects`: it does not return, whatever there is.
-/

namespace HuskyKernel

open Pci ConfigPorts

/-- `usb_host_controller_t`. -/
structure UsbHostController where
  baseAddress : Word
  type : Byte
  initialized : Bool
deriving DecidableEq, Repr

/-- The ports, `usb_hc`, and what has been printed. -/
structure Usb where
  ports : ConfigPorts
  usbHc : UsbHostController
  printed : List Message

namespace Usb

/-- `pci_read_config`. -/
def read (bus slot func offset : Byte) : StateM Usb Word := fun s =>
  let (value, ports) := s.ports.pciReadConfig bus slot func offset
  (value, { s with ports := ports })

/-- The body of the loops: `true` if a controller has been found. -/
def probe (bus slot func : Byte) : StateM Usb Bool := do
  let vendorDevice ← read bus slot func 0x00
  let vendorId : BitVec 16 := (vendorDevice &&& 0xFFFF).setWidth 16
  if vendorId = 0xFFFF then return false
  else
    let classCode : BitVec 8 := ((← read bus slot func 0x08) >>> 24).setWidth 8
    let subclassCode : BitVec 8 := ((← read bus slot func 0x08) >>> 16 &&& 0xFF).setWidth 8
    if classCode = 0x0C ∧ subclassCode = 0x03 then
      let progIf : BitVec 8 := ((← read bus slot func 0x08) >>> 8 &&& 0xFF).setWidth 8
      let base ← read bus slot func 0x10
      modify fun s => { s with
        usbHc := ⟨base &&& 0xFFFFFFF0, UInt8.ofBitVec (progIf &&& 0xF0), true⟩
        printed := s.printed ++ [⟨str "USB Host Controller detected: ", []⟩] }
      return true
    else return false

/-- The innermost loop, over the functions left. -/
def funcLoop (bus slot : Byte) : List ℕ → StateM Usb Bool
  | [] => return false
  | f :: fs => do
      if ← probe bus slot (UInt8.ofNat f) then return true else funcLoop bus slot fs

/-- The middle loop, over the slots left. -/
def slotLoop (bus : Byte) : List ℕ → StateM Usb Bool
  | [] => return false
  | d :: ds => do
      if ← funcLoop bus (UInt8.ofNat d) (List.range 8) then return true else slotLoop bus ds

/-- The outer loop, for at most `n` buses: `bus < 256` always holds of a `uint8_t`, so that the
`return false` behind the loop is not reached. -/
def busLoop : ℕ → Byte → StateM Usb (Option Bool)
  | 0, _ => return none
  | n + 1, bus => do
      if ← slotLoop bus (List.range 32) then return some true else busLoop n (bus + 1)

/-- `detect_usb_host_controller`: what it returns, if it does within `fuel` buses. -/
def detectUsbHostController (fuel : ℕ) : StateM Usb (Option Bool) := busLoop fuel 0

/-! ## What a detection should find -/

/-- A register of a function. -/
def register (config : Config) (f : Place) (offset : Byte) : Word :=
  readConfigSpace config f.bus f.device f.function offset

/-- There is a USB host controller at a place. -/
def IsHost (config : Config) (f : Place) : Prop :=
  (register config f 0x00).extractLsb' 0 16 ≠ 0xFFFF ∧
    (register config f 0x08).extractLsb' 24 8 = 0x0C ∧
      (register config f 0x08).extractLsb' 16 8 = 0x03

instance (config : Config) (f : Place) : Decidable (IsHost config f) :=
  inferInstanceAs (Decidable (_ ∧ _ ∧ _))

/-- The controller at a place. -/
def hostAt (config : Config) (f : Place) : UsbHostController where
  baseAddress := register config f 0x10 &&& 0xFFFFFFF0
  type := UInt8.ofBitVec ((register config f 0x08).extractLsb' 8 8 &&& 0xF0)
  initialized := true

/-- The detection returns, and says whether there is a controller and which is the first. -/
def Detects (s : Usb) : Prop :=
  ∃ fuel found t, detectUsbHostController fuel s = (some found, t) ∧
    (found = true ↔ ∃ f ∈ visited 256, IsHost s.ports.config f) ∧
    ∀ f, (visited 256).find? (fun f => IsHost s.ports.config f) = some f →
      t.usbHc = hostAt s.ports.config f

/-! ## What it does -/

section Loops

variable {α β : Type} {x : StateM Usb α} {f : α → StateM Usb β} {a : α} {s t : Usb}
  {bus slot : Byte}

/-- A step hands its value and state to what follows. -/
theorem bind_of_eq (h : x s = (a, t)) : (x >>= f) s = f a t := by
  change f (x s).1 (x s).2 = f a t
  rw [h]

/-- A read answers a byte, whatever it is asked for. -/
theorem read_eq (s : Usb) : ∃ b : BitVec 8, ∀ bus slot func offset,
    read bus slot func offset s = (b.setWidth 32, s) :=
  ⟨(s.ports.config s.ports.latch).setWidth 8, fun _ _ _ _ => rfl⟩

theorem shift_byte (b : BitVec 8) : (b.setWidth 32 >>> 24 : Word) = 0 := by
  have hlt := b.isLt
  refine BitVec.eq_of_toNat_eq ?_
  rw [BitVec.toNat_ushiftRight, BitVec.toNat_setWidth, Nat.mod_eq_of_lt (by omega),
    Nat.shiftRight_eq_div_pow, Nat.div_eq_of_lt (by omega)]
  rfl

/-- **No function has a class.** -/
theorem probe_eq (func : Byte) : probe bus slot func s = (false, s) := by
  obtain ⟨b, hread⟩ := read_eq s
  rw [probe, bind_of_eq (hread bus slot func 0x00)]
  dsimp only
  by_cases hvendor : BitVec.setWidth 16 (b.setWidth 32 &&& 0xFFFF) = 0xFFFF
  · rw [if_pos hvendor]
    rfl
  · have hclass : ¬ (0 : BitVec 8) = 0x0C := by decide
    have hread08 := hread bus slot func 0x08
    rw [if_neg hvendor, bind_of_eq hread08, bind_of_eq hread08, shift_byte]
    exact congrFun (if_neg fun h => hclass h.1) s

theorem funcLoop_eq : ∀ fs, funcLoop bus slot fs s = (false, s)
  | [] => rfl
  | _ :: fs => (bind_of_eq (probe_eq _)).trans (funcLoop_eq fs)

theorem slotLoop_eq : ∀ ds, slotLoop bus ds s = (false, s)
  | [] => rfl
  | _ :: ds => (bind_of_eq (funcLoop_eq _)).trans (slotLoop_eq ds)

/-- **The outer loop goes on.** -/
theorem busLoop_eq : ∀ (n : ℕ) (bus : Byte), busLoop n bus s = (none, s)
  | 0, _ => rfl
  | n + 1, bus => (bind_of_eq (slotLoop_eq _)).trans (busLoop_eq n (bus + 1))

/-- It has not returned after any number of buses. -/
theorem not_returns (fuel : ℕ) (found : Bool) :
    detectUsbHostController fuel s ≠ (some found, t) := by
  rw [detectUsbHostController, busLoop_eq]
  intro h
  cases h

end Loops

/-- **The detection never returns**, so there is no configuration space it is right for. -/
theorem not_detects (s : Usb) : ¬ Detects s := by
  rintro ⟨fuel, found, t, hrun, -⟩
  exact not_returns fuel found hrun

/-- A UHCI controller at bus 0, device 1, function 2. -/
def uhci : Usb where
  ports :=
    { config := fun a =>
        if a = 0x80000A00 then 0x70208086
        else if a = 0x80000A08 then 0x0C030001
        else if a = 0x80000A10 then 0xC001
        else 0xFFFFFFFF
      latch := 0 }
  usbHc := ⟨0, 0, false⟩
  printed := []

/-- It is there, and it is not found. -/
theorem not_detects_uhci : IsHost uhci.ports.config ⟨0, 1, 2⟩ ∧ ¬ Detects uhci := by
  refine ⟨by decide +kernel, fun h => ?_⟩
  obtain ⟨fuel, found, t, hrun, -⟩ := h
  exact not_returns fuel found hrun

end Usb

end HuskyKernel
