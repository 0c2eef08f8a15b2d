import HuskyKernel.Drivers.Pci

/-!
# Drivers/ConfigPorts — the two ports of PCI configuration space

A 32-bit write to the address port latches an address, and the data port answers what is there.  A
byte written to the address port latches nothing, and a byte read from the data port is the low one.
The PCI driver goes through the ports 32 bits at a time; the helpers of the USB driver are a byte
wide.  `pciReadConfig_eq_iff`: the two readers agree exactly on the registers that fit in a byte and
have the low byte of the one latched before.
-/

namespace HuskyKernel

open Pci

/-- Configuration space behind its ports: the address port holds what was latched last. -/
structure ConfigPorts where
  config : Config
  latch : Word

namespace ConfigPorts

/-! ## The ports -/

/-- `outl(PCI_CONFIG_ADDRESS, value)`. -/
def outlAddress (value : Word) (p : ConfigPorts) : ConfigPorts := { p with latch := value }

/-- `outb(PCI_CONFIG_ADDRESS, value)`. -/
def outbAddress (_ : Byte) (p : ConfigPorts) : ConfigPorts := p

/-- `inl(PCI_CONFIG_DATA)`. -/
def inlData (p : ConfigPorts) : Word := p.config p.latch

/-- `inb(PCI_CONFIG_DATA)`. -/
def inbData (p : ConfigPorts) : Byte := UInt8.ofBitVec (p.inlData.setWidth 8)

/-! ## The readers -/

/-- `pci_read_config_space`. -/
def pciReadConfigSpace (bus device function offset : Byte) (p : ConfigPorts) : Word × ConfigPorts :=
  let address := bus.toBitVec.setWidth 32 <<< 16 ||| device.toBitVec.setWidth 32 <<< 11 |||
    function.toBitVec.setWidth 32 <<< 8 ||| (offset &&& 0xFC).toBitVec.setWidth 32 ||| 0x80000000
  let p := p.outlAddress address
  (p.inlData, p)

/-- `pci_read_config`. -/
def pciReadConfig (bus slot func offset : Byte) (p : ConfigPorts) : Word × ConfigPorts :=
  let address : Word := 1 <<< 31 ||| bus.toBitVec.setWidth 32 <<< 16 |||
    slot.toBitVec.setWidth 32 <<< 11 ||| func.toBitVec.setWidth 32 <<< 8 |||
      (offset &&& 0xFC).toBitVec.setWidth 32
  let p := p.outbAddress (UInt8.ofBitVec (address.setWidth 8))
  (p.inbData.toBitVec.setWidth 32, p)

variable {p : ConfigPorts} {bus device function offset : Byte}

/-- The PCI driver's reader answers the register it is asked for, whatever was latched. -/
theorem pciReadConfigSpace_fst : (p.pciReadConfigSpace bus device function offset).1 =
    readConfigSpace p.config bus device function offset := rfl

/-- The USB driver's reader answers the low byte of the register latched before, whichever it is
asked for. -/
theorem pciReadConfig_eq : p.pciReadConfig bus device function offset =
    (((p.config p.latch).setWidth 8).setWidth 32, p) := rfl

/-! ## Agreement -/

/-- A byte, zero-extended, is a word. -/
theorem setWidth_eq_iff (b : BitVec 8) (x : Word) :
    b.setWidth 32 = x ↔ x >>> 8 = 0 ∧ x.setWidth 8 = b := by
  have hx := x.isLt
  have hb := b.isLt
  rw [← BitVec.toNat_inj, ← BitVec.toNat_inj, ← BitVec.toNat_inj, BitVec.toNat_setWidth,
    BitVec.toNat_setWidth, BitVec.toNat_ushiftRight, Nat.shiftRight_eq_div_pow,
    show (0 : Word).toNat = 0 from rfl]
  omega

/-- **The two readers agree** exactly on the registers that fit in a byte and have the low byte of
the one latched before. -/
theorem pciReadConfig_eq_iff (p : ConfigPorts) (bus device function offset : Byte) :
    (p.pciReadConfig bus device function offset).1 =
        (p.pciReadConfigSpace bus device function offset).1 ↔
      readConfigSpace p.config bus device function offset >>> 8 = 0 ∧
        (readConfigSpace p.config bus device function offset).setWidth 8 =
          (p.config p.latch).setWidth 8 := by
  rw [pciReadConfig_eq, pciReadConfigSpace_fst]
  exact setWidth_eq_iff _ _

/-- One function, at bus 0, device 1, and its identification latched. -/
def oneFunction : ConfigPorts where
  config a := if a = 0x80000800 then 0x70208086 else 0xFFFFFFFF
  latch := 0x80000800

/-- Its identification, read by both. -/
theorem not_pciReadConfig_eq : ¬ ∀ (p : ConfigPorts) (bus device function offset : Byte),
    (p.pciReadConfig bus device function offset).1 =
      (p.pciReadConfigSpace bus device function offset).1 := by
  intro hall
  have hread := hall oneFunction 0 1 0 0
  exact absurd hread (by decide +kernel)

end ConfigPorts

end HuskyKernel
