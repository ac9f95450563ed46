import Mathlib.Data.Rat.Floor
import Mathlib.Data.List.Sort
import Trident.Lib.Bisect

/-! # Cross section lookups

The three ways in which XSBench finds an energy in the grid of a nuclide, with exact
arithmetic for `double` and natural numbers for the indices.
-/

namespace Trident.XsBench

open Bisect

structure NuclideGridPoint where
  energy : ℚ
  totalXs : ℚ
  elasticXs : ℚ
  absorbtionXs : ℚ
  fissionXs : ℚ
  nuFissionXs : ℚ

/-- The grids after `sort_nuclide_grids`. -/
structure NuclideGrids where
  nIsotopes : Nat
  nGridpoints : Nat
  point : Nat → Nat → NuclideGridPoint
  two_le : 2 ≤ nGridpoints
  sorted : ∀ i < nIsotopes, ∀ j k, j ≤ k → k < nGridpoints → (point i j).energy ≤ (point i k).energy

structure GridPoint where
  energy : ℚ
  xsPtrs : Nat → Nat

inductive GridType where
  | unionized
  | nuclide
  | hash
  deriving DecidableEq

namespace NuclideGrids

variable (g : NuclideGrids)

def energy (i j : Nat) : ℚ := (g.point i j).energy

def gridSearchNuclide (quarry : ℚ) (nuc low high : Nat) : Nat :=
  bisect (fun j => decide (quarry < g.energy nuc j)) low high

/-- `generate_hash_table`, with what `malloc` has left in the energies. -/
def generateHashTable (memory : Nat → ℚ) (hashBins : Nat) : List GridPoint :=
  let du : ℚ := 1 / hashBins
  (List.range hashBins).map fun e =>
    { energy := memory e
      xsPtrs := fun i => g.gridSearchNuclide (e * du) i 0 (g.nGridpoints - 1) }

/-- `generate_energy_grid`: a copy of all grids, sorted with `NGP_compare`, gives the energies. -/
def generateEnergyGrid : List ℚ :=
  let full := (List.range g.nIsotopes).flatMap fun i => (List.range g.nGridpoints).map (g.point i)
  (full.insertionSort fun a b => a.energy ≤ b.energy).map NuclideGridPoint.energy

structure Cursor where
  idxLow : Nat
  energyHigh : ℚ

/-- One turn of the inner loop of `initialization_do_not_profile_set_grid_ptrs`. -/
def advance (i : Nat) (c : Cursor) (unionizedEnergy : ℚ) : Cursor :=
  if unionizedEnergy < c.energyHigh then c
  else if c.idxLow = g.nGridpoints - 2 then c
  else { idxLow := c.idxLow + 1, energyHigh := g.energy i (c.idxLow + 1 + 1) }

/-- Its outer loop: each entry takes the indices of all nuclides after their turn. -/
def fillPtrs (cursors : Nat → Cursor) : List ℚ → List GridPoint
  | [] => []
  | unionizedEnergy :: energies =>
    let next := fun i => g.advance i (cursors i) unionizedEnergy
    { energy := unionizedEnergy, xsPtrs := fun i => (next i).idxLow } :: fillPtrs next energies

def firstCursor (i : Nat) : Cursor := { idxLow := 0, energyHigh := g.energy i 1 }

/-- `initialization_do_not_profile_set_grid_ptrs` -/
def setGridPtrs (energies : List ℚ) : List GridPoint := g.fillPtrs g.firstCursor energies

/-- The table that `real_main` prepares for the grid type. -/
def energyGrid (memory : Nat → ℚ) (hashBins : Nat) : GridType → List GridPoint
  | .unionized => g.setGridPtrs g.generateEnergyGrid
  | .nuclide => []
  | .hash => g.generateHashTable memory hashBins

end NuclideGrids

def energyAbove (quarry : ℚ) (A : List GridPoint) (k : Nat) : Bool :=
  A[k]?.any fun point => decide (quarry < point.energy)

def gridSearch (n : Nat) (quarry : ℚ) (A : List GridPoint) : Nat :=
  bisect (energyAbove quarry A) 0 (n - 1)

/-- `energy_grid[idx].xs_ptrs[nuc]` -/
def readPtr (energyGrid : List GridPoint) (idx : Int) (nuc : Nat) : Option Nat :=
  if 0 ≤ idx then energyGrid[idx.toNat]?.map fun point => point.xsPtrs nuc else none

namespace NuclideGrids

variable (g : NuclideGrids)

/-- The index that `calculate_macro_xs` finds once for all nuclides. -/
def macroIndex (energyGrid : List GridPoint) (hashBins : Nat) (pEnergy : ℚ) : GridType → Int
  | .unionized => gridSearch (g.nIsotopes * g.nGridpoints) pEnergy energyGrid
  | .nuclide => -1
  | .hash =>
    let du : ℚ := 1 / hashBins
    ⌊pEnergy / du⌋

/-- The last point has no interval of its own. -/
def notLast (idx : Nat) : Nat := if idx = g.nGridpoints - 1 then idx - 1 else idx

/-- The search of the hash grid between the two bounds, with its edge cases. -/
def searchBetween (pEnergy : ℚ) (nuc uLow uHigh : Nat) : Nat :=
  if pEnergy ≤ g.energy nuc uLow then 0
  else if g.energy nuc uHigh ≤ pEnergy then g.nGridpoints - 1
  else g.gridSearchNuclide pEnergy nuc uLow uHigh

/-- The index of `low` in `calculate_micro_xs`. -/
def lowIndex (energyGrid : List GridPoint) (idx : Int) (hashBins : Nat) (pEnergy : ℚ) (nuc : Nat) :
    GridType → Option Nat
  | .nuclide => some (g.notLast (g.gridSearchNuclide pEnergy nuc 0 (g.nGridpoints - 1)))
  | .unionized => (readPtr energyGrid idx nuc).map g.notLast
  | .hash => do
    let uLow ← readPtr energyGrid idx nuc
    let uHigh ←
      if idx = hashBins - 1 then some (g.nGridpoints - 1)
      else (readPtr energyGrid (idx + 1) nuc).map (· + 1)
    return g.notLast (g.searchBetween pEnergy nuc uLow uHigh)

end NuclideGrids

structure XsVector where
  total : ℚ
  elastic : ℚ
  absorbtion : ℚ
  fission : ℚ
  nuFission : ℚ
  deriving DecidableEq

def interpolate (pEnergy : ℚ) (low high : NuclideGridPoint) : Option XsVector :=
  if high.energy - low.energy = 0 then none
  else
    let f := (high.energy - pEnergy) / (high.energy - low.energy)
    some
      { total := high.totalXs - f * (high.totalXs - low.totalXs)
        elastic := high.elasticXs - f * (high.elasticXs - low.elasticXs)
        absorbtion := high.absorbtionXs - f * (high.absorbtionXs - low.absorbtionXs)
        fission := high.fissionXs - f * (high.fissionXs - low.fissionXs)
        nuFission := high.nuFissionXs - f * (high.nuFissionXs - low.nuFissionXs) }

def XsVector.zero : XsVector := ⟨0, 0, 0, 0, 0⟩

/-- `macro_xs_vector[k] += xs_vector[k] * conc` -/
def XsVector.addScaled (macroXs xs : XsVector) (conc : ℚ) : XsVector :=
  ⟨macroXs.total + xs.total * conc, macroXs.elastic + xs.elastic * conc,
    macroXs.absorbtion + xs.absorbtion * conc, macroXs.fission + xs.fission * conc,
    macroXs.nuFission + xs.nuFission * conc⟩

namespace NuclideGrids

variable (g : NuclideGrids)

def calculateMicroXs (energyGrid : List GridPoint) (idx : Int) (hashBins : Nat) (pEnergy : ℚ)
    (gridType : GridType) (nuc : Nat) : Option XsVector := do
  let low ← g.lowIndex energyGrid idx hashBins pEnergy nuc gridType
  interpolate pEnergy (g.point nuc low) (g.point nuc (low + 1))

/-- `calculate_macro_xs`; a material lists its nuclides with their concentrations. -/
def calculateMacroXs (energyGrid : List GridPoint) (hashBins : Nat) (pEnergy : ℚ)
    (gridType : GridType) (mat : List (Nat × ℚ)) : Option XsVector :=
  let idx := g.macroIndex energyGrid hashBins pEnergy gridType
  mat.foldlM (fun macroXs nuclide => do
    let xs ← g.calculateMicroXs energyGrid idx hashBins pEnergy gridType nuclide.1
    return macroXs.addScaled xs nuclide.2) XsVector.zero

end NuclideGrids

end Trident.XsBench
