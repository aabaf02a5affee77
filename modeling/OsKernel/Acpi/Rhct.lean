import OsKernel.Base.Effect
import OsKernel.Base.MemoryBits

/-!
# The RISC-V hart capabilities table (`kernel/arch/riscv64/acpi/rhct.c`)

A hart-info node is printed with the nodes that its offsets name. The table is where the offsets
come from, and nothing keeps them from leading back.
-/

namespace OsKernel.Acpi

open Effect Filter

section code

variable (mem : Memory) (rhct : Nat)

def ACPI_RHCT_NODE_KIND_ISA_STRING : Nat := 0
def ACPI_RHCT_NODE_KIND_HART_INFO : Nat := 65535

/-- The nodes that the offsets of a hart-info node name. -/
def hartNodes (node : Nat) : List Nat :=
  (List.range (mem.load (node + 6) 2)).map fun j => (rhct + mem.load (node + 12 + 4 * j) 4) % 2 ^ 64

/-- The output is the nodes that were printed. -/
def printk (node : Nat) : Effect (List Nat) Unit := fun out => (.ok (), out ++ [node])

def printRhctNode : Nat → Nat → Effect (List Nat) Unit
  | 0, _ => lift (.error .outOfFuel)
  | fuel + 1, node =>
    if mem.load node 2 = ACPI_RHCT_NODE_KIND_ISA_STRING then printk node
    else if mem.load node 2 = ACPI_RHCT_NODE_KIND_HART_INFO then do
      printk node
      runAll (printRhctNode fuel) (hartNodes mem rhct node)
    else pure ()

/-- The nodes of the table, each one behind the one before. -/
def rhctNodes : Nat → Nat → List Nat
  | 0, _ => []
  | count + 1, node => node :: rhctNodes count ((node + mem.load (node + 2) 2) % 2 ^ 64)

def acpiRhctInit (fuel : Nat) : Effect (List Nat) Unit :=
  runAll (printRhctNode mem rhct fuel)
    (rhctNodes mem (mem.load (rhct + 48) 4) ((rhct + mem.load (rhct + 52) 4) % 2 ^ 64))

end code

variable {mem : Memory} {rhct : Nat}

/-- The hart-info node names the other node. -/
def Names (mem : Memory) (rhct : Nat) (other node : Nat) : Prop :=
  mem.load node 2 = ACPI_RHCT_NODE_KIND_HART_INFO ∧ other ∈ hartNodes mem rhct node

theorem acc_of_ok : ∀ {fuel node : Nat} {out : List Nat},
    (printRhctNode mem rhct fuel node out).1 = .ok () → Acc (Names mem rhct) node
  | fuel + 1, node, out, h => by
    refine ⟨_, fun other hnames => ?_⟩
    rw [printRhctNode, hnames.1, if_neg (by decide), if_pos rfl] at h
    obtain ⟨_, hother⟩ := runAll_ok h other hnames.2
    exact acc_of_ok hother

/-- With enough fuel, everything is printed. -/
theorem ok_runAll_eventually {calls : List Nat}
    (h : ∀ node ∈ calls, ∀ᶠ fuel in atTop, ∀ out, (printRhctNode mem rhct fuel node out).1 = .ok ()) :
    ∀ᶠ fuel in atTop, ∀ out, (runAll (printRhctNode mem rhct fuel) calls out).1 = .ok () := by
  have hall := (eventually_all_finset calls.toFinset).mpr fun node hnode =>
    h node (List.mem_toFinset.mp hnode)
  filter_upwards [hall] with fuel hfuel
  exact ok_runAll fun node hnode => hfuel node (List.mem_toFinset.mpr hnode)

theorem ok_of_acc {node : Nat} (h : Acc (Names mem rhct) node) :
    ∀ᶠ fuel in atTop, ∀ out, (printRhctNode mem rhct fuel node out).1 = .ok () := by
  induction h with
  | intro node _ ih =>
    rw [← map_add_atTop_eq_nat 1, eventually_map]
    by_cases hkind : mem.load node 2 = ACPI_RHCT_NODE_KIND_HART_INFO
    · filter_upwards [ok_runAll_eventually fun other hmem => ih other ⟨hkind, hmem⟩] with fuel h out
      rw [printRhctNode, hkind, if_neg (by decide), if_pos rfl]
      exact h _
    · refine .of_forall fun fuel out => ?_
      rw [printRhctNode, if_neg hkind]
      split <;> rfl

/-- **`acpi_rhct_init` ends exactly if no node of the table leads to an endless chain of names.** -/
theorem acpiRhctInit_ends_iff (mem : Memory) (rhct : Nat) :
    (∃ fuel, (acpiRhctInit mem rhct fuel []).1 = .ok ()) ↔
      ∀ node ∈ rhctNodes mem (mem.load (rhct + 48) 4) ((rhct + mem.load (rhct + 52) 4) % 2 ^ 64),
        Acc (Names mem rhct) node := by
  constructor
  · intro ⟨fuel, h⟩ node hnode
    obtain ⟨_, hnode⟩ := runAll_ok h node hnode
    exact acc_of_ok hnode
  · intro h
    obtain ⟨fuel, hfuel⟩ := (ok_runAll_eventually fun node hnode => ok_of_acc (h node hnode)).exists
    exact ⟨fuel, hfuel []⟩

theorem not_names_self {node : Nat} (h : Acc (Names mem rhct) node) : ¬ Names mem rhct node node := by
  induction h with
  | intro node _ ih => exact fun hnames => ih node hnames hnames

/-- A hart-info node that names itself. -/
theorem acpiRhctInit_self : ¬ ∃ fuel, (acpiRhctInit (fun a => if a = 48 ∨ a = 62 then 1 else
    if a = 52 ∨ a = 68 then 56 else if a = 56 ∨ a = 57 then 255 else 0) 0 fuel []).1 = .ok () := by
  intro ⟨fuel, h⟩
  obtain ⟨_, hnode⟩ := runAll_ok h 56 (by decide)
  exact not_names_self (acc_of_ok hnode) ⟨by decide, by decide⟩

end OsKernel.Acpi
