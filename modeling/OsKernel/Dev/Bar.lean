import OsKernel.Adt.RangeAlign
import OsKernel.Mm.Mmio

/-!
# Mapping a base address register (`kernel/dev/pci/pci.c`)

`pci_map_bar` maps the pages around the range of a base address register (BAR). Where `vmap_mmio`
fails, the caller is told by a number that is not zero.
-/

namespace OsKernel.Dev

open Adt (Ptr Range)
open Mm (Mmio PAGE_SIZE PROT_RW)
open Result

/-- `struct pci_device_bar_info`. -/
structure PciDeviceBarInfo where
  portOrPhysRange : Range
  mmio : Option Ptr
  indexInMmio : Nat
  isPresent : Bool
  isMmio : Bool
  isMapped : Bool

def pciMapBar (s : Mmio) (fuel : Nat) (kmalloc : Option Ptr) (mapSuccess : Bool)
    (bar : PciDeviceBarInfo) : Result (Bool × PciDeviceBarInfo × Mmio) :=
  if !bar.isMmio then .ok (false, bar, s)
  else if bar.isMapped then .ok (true, bar, s)
  else
    match bar.portOrPhysRange.alignOut PAGE_SIZE with
    | none => .ok (false, bar, s)
    | some alignedRange => do
      match ← s.vmapMmio fuel kmalloc mapSuccess alignedRange PROT_RW with
      -- `E_PARSE_BAR_MMIO_MAP_FAIL`
      | (none, s) => pure (true, bar, s)
      | (some mmio, s) => pure (true, { bar with
          mmio := some mmio
          indexInMmio := bar.portOrPhysRange.front - alignedRange.front
          isMapped := true }, s)

/-- The byte at `index` of the region is this byte of the BAR. -/
def PciDeviceBarInfo.At (bar : PciDeviceBarInfo) (s : Mmio) (index offset : Nat) : Prop :=
  ∃ mmio, bar.mmio = some mmio ∧ index < s.size mmio ∧
    s.phys mmio + index = bar.portOrPhysRange.front + offset

/-- The BAR is mapped, all of it. -/
def PciDeviceBarInfo.Mapped (bar : PciDeviceBarInfo) (s : Mmio) : Prop :=
  bar.isMapped = true ∧
    ∀ offset < bar.portOrPhysRange.size, bar.At s (bar.indexInMmio + offset) offset

/-- The pages around the BAR are mapped: `vmap_mmio` returns a region for them. -/
def PciDeviceBarInfo.Maps (bar : PciDeviceBarInfo) (s : Mmio) (fuel : Nat) (kmalloc : Option Ptr)
    (mapSuccess : Bool) : Prop :=
  ∃ aligned mmio s', bar.portOrPhysRange.alignOut PAGE_SIZE = some aligned ∧
    s.vmapMmio fuel kmalloc mapSuccess aligned PROT_RW = .ok (some mmio, s')

theorem mapped_iff {bar : PciDeviceBarInfo} {s : Mmio} {mmio : Ptr} (hmmio : bar.mmio = some mmio)
    (hmapped : bar.isMapped = true)
    (hindex : s.phys mmio + bar.indexInMmio = bar.portOrPhysRange.front)
    (hsize : 0 < bar.portOrPhysRange.size) :
    bar.Mapped s ↔ bar.indexInMmio + bar.portOrPhysRange.size ≤ s.size mmio := by
  constructor
  · intro h
    obtain ⟨_, hm, hlt, _⟩ := h.2 (bar.portOrPhysRange.size - 1) (by omega)
    cases hmmio.symm.trans hm
    omega
  · intro h
    exact ⟨hmapped, fun offset hoffset => ⟨mmio, hmmio, by omega, by omega⟩⟩

/--
**`pci_map_bar` is right about a new memory BAR exactly if the mapping succeeds and covers it.**
There must be less than 4 GiB to map, and rounding must not lose the end.
-/
theorem pciMapBar_mapped_iff {s s' : Mmio} {fuel : Nat} {kmalloc : Option Ptr} {mapSuccess ok : Bool}
    {bar bar' : PciDeviceBarInfo} (hfront : bar.portOrPhysRange.front < U64)
    (hrun : pciMapBar s fuel kmalloc mapSuccess bar = .ok (ok, bar', s')) :
    (ok = true → bar'.Mapped s') ↔
      bar.isMmio = false ∨ if bar.isMapped then bar.Mapped s else
        U64 ≤ bar.portOrPhysRange.size + (PAGE_SIZE - 1) ∨
          bar.Maps s fuel kmalloc mapSuccess ∧ bar.portOrPhysRange.RoundsOut PAGE_SIZE ∧
            bar.portOrPhysRange.size + (PAGE_SIZE - 1) < 2 ^ 32 := by
  obtain ⟨range, mmio, index, present, isMmio, isMapped⟩ := bar
  have hpage : PAGE_SIZE = 2 ^ 12 := rfl
  by_cases hmmio : isMmio = true
  case neg =>
    simp only [pciMapBar, hmmio, Bool.not_false, if_true] at hrun
    cases hrun
    exact iff_of_true (fun h => by cases h) (.inl (by simpa using hmmio))
  subst hmmio
  by_cases hmap : isMapped = true
  case pos =>
    simp only [pciMapBar, hmap, Bool.not_true, Bool.false_eq_true, if_false, if_true] at hrun
    cases hrun
    simp [hmap]
  obtain rfl : isMapped = false := by simpa using hmap
  simp only [pciMapBar, Bool.not_true, Bool.false_eq_true, if_false] at hrun
  simp only [Bool.true_eq_false, Bool.false_eq_true, if_false, false_or, PciDeviceBarInfo.Maps]
  cases hup : alignUp range.size PAGE_SIZE with
  | none =>
    rw [Range.alignOut, hup] at hrun
    cases hrun
    rw [hpage] at hup
    exact iff_of_true (fun h => by cases h) (.inl (alignUp_eq_none.mp hup))
  | some size =>
    have hout : range.alignOut PAGE_SIZE = some ⟨alignDown range.front PAGE_SIZE, size⟩ := by
      rw [Range.alignOut, hup]
    rw [hpage] at hup
    have hroom : ¬ U64 ≤ range.size + (PAGE_SIZE - 1) := fun h => by
      cases (alignUp_eq_none.mpr h).symm.trans hup
    have hsize := alignUp_eq_some (by decide) hup
    have hdown : alignDown range.front PAGE_SIZE = _ := alignDown_two_pow (by decide) hfront
    rw [hout] at hrun
    obtain ⟨⟨_ | region, t⟩, hvmap, hrun⟩ := bind_eq_ok.mp hrun
    · -- no region: the BAR is as it was, and true is returned
      cases hrun
      refine iff_of_false (fun h => Bool.false_ne_true (h rfl).1) ?_
      rintro (hno | ⟨⟨aligned, mmio', t', ha, hmaps⟩, -⟩)
      · exact hroom hno
      · rw [hout, Option.some.injEq] at ha
        rw [← ha, hvmap] at hmaps
        cases hmaps
    · cases hrun
      obtain ⟨hpos, hlen, hphys⟩ := Mmio.vmapMmio_some hvmap
      dsimp only at hpos hlen hphys
      have hnonempty : 0 < range.size := by split at hsize <;> omega
      have hmaps : ∃ aligned mmio s', range.alignOut PAGE_SIZE = some aligned ∧
          s.vmapMmio fuel kmalloc mapSuccess aligned PROT_RW = .ok (some mmio, s') :=
        ⟨_, region, s', hout, hvmap⟩
      have hle : alignDown range.front PAGE_SIZE ≤ range.front := by
        rw [hdown]
        exact Nat.sub_le _ _
      have hmod : range.front % 2 ^ 12 ≤ range.front := Nat.mod_le _ _
      simp only [hroom, hmaps, false_or, true_and, forall_const, Range.RoundsOut, hnonempty.ne']
      refine (mapped_iff rfl rfl ?_ hnonempty).trans ?_
      · dsimp only
        rw [hphys]
        exact Nat.add_sub_cancel' hle
      · dsimp only
        rw [hlen, hdown]
        simp only [hpage, Mm.PAGE_SHIFT] at hroom ⊢
        split at hsize <;> omega

/-- A page of a device, as the first region. -/
theorem pciMapBar_mapped_iff_page :
    ∃ bar s', pciMapBar Mmio.noRegions 2 (some 1) true ⟨⟨0x1000, 0x1000⟩, none, 0, true, true, false⟩
      = .ok (true, bar, s') ∧ bar.Mapped s' := by
  have hrun : (pciMapBar Mmio.noRegions 2 (some 1) true
      ⟨⟨0x1000, 0x1000⟩, none, 0, true, true, false⟩).map Prod.fst = .ok true := by decide +kernel
  obtain ⟨⟨_, bar, s'⟩, hrun, rfl⟩ := map_eq_ok.mp hrun
  have hmaps : (Mmio.noRegions.vmapMmio 2 (some 1) true ⟨0x1000, 0x1000⟩ PROT_RW).map Prod.fst
      = .ok (some 1) := by decide +kernel
  obtain ⟨⟨_, t⟩, hmaps, rfl⟩ := map_eq_ok.mp hmaps
  exact ⟨bar, s', hrun, (pciMapBar_mapped_iff (by decide) hrun).mpr
    (.inr (.inr ⟨⟨⟨0x1000, 0x1000⟩, 1, t, by decide, hmaps⟩, by decide⟩)) rfl⟩

/-- `vmap_mmio` fails and `pci_map_bar` returns true. -/
theorem pciMapBar_fails :
    pciMapBar Mmio.noRegions 2 none true ⟨⟨0x1000, 0x1000⟩, none, 0, true, true, false⟩
      = .ok (true, ⟨⟨0x1000, 0x1000⟩, none, 0, true, true, false⟩, Mmio.noRegions) ∧
    ¬ (⟨⟨0x1000, 0x1000⟩, none, 0, true, true, false⟩ : PciDeviceBarInfo).Mapped Mmio.noRegions :=
  ⟨rfl, fun h => absurd h.1 (by decide)⟩

end OsKernel.Dev
