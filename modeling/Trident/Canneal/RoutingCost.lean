import Mathlib.Algebra.BigOperators.Ring.Finset
import Mathlib.Algebra.Order.BigOperators.Group.Finset
import Mathlib.Data.Rat.Cast.Order
import Mathlib.Tactic.Linarith
import Mathlib.Tactic.Ring
import Trident.Canneal.AtomicPtr

/-! # The routing cost and its change by a swap

`total_routing_cost` of a placement, and what `calculate_delta_routing_cost` takes
for its change when two elements swap their locations. Costs are exact.
-/

namespace Trident.Canneal

@[ext]
structure Location where
  x : Int
  y : Int
  deriving DecidableEq

/-- The elements of the chip with their nets. Those in `_elem_names` are `named`; the
others are blank. -/
structure Netlist (E : Type*) [DecidableEq E] where
  named : List E
  fanin : E → List E
  fanout : E → List E
  nodup : named.Nodup
  converse : ∀ u v, (fanin u).count v = (fanout v).count u
  nets : ∀ u, ∀ v ∈ fanin u, u ∈ named ∧ v ∈ named

variable {E : Type*} [DecidableEq E]

/-- `cost += fabs(loc.x - other->x); cost += fabs(loc.y - other->y);` -/
def addDistance (cost : ℚ) (loc other : Location) : ℚ :=
  cost + |((loc.x - other.x : Int) : ℚ)| + |((loc.y - other.y : Int) : ℚ)|

def routingCostGivenLoc (net : Netlist E) (presentLoc : E → Location) (e : E) (loc : Location) : ℚ :=
  let faninCost := (net.fanin e).foldl (fun cost f => addDistance cost loc (presentLoc f)) 0
  let fanoutCost := (net.fanout e).foldl (fun cost f => addDistance cost loc (presentLoc f)) 0
  faninCost + fanoutCost

def swapCost (net : Netlist E) (presentLoc : E → Location) (e : E) (oldLoc newLoc : Location) : ℚ :=
  let turn := fun (cost : ℚ × ℚ) f =>
    (addDistance cost.1 oldLoc (presentLoc f), addDistance cost.2 newLoc (presentLoc f))
  let (noSwap, yesSwap) := (net.fanout e).foldl turn ((net.fanin e).foldl turn (0, 0))
  yesSwap - noSwap

def totalRoutingCost (net : Netlist E) (presentLoc : E → Location) : ℚ :=
  net.named.foldl (fun rval e => rval + routingCostGivenLoc net presentLoc e (presentLoc e)) 0 / 2

def swapLocations (presentLoc : E → Location) (a b : E) : E → Location :=
  Function.update (Function.update presentLoc a (presentLoc b)) b (presentLoc a)

def calculateDeltaRoutingCost (net : Netlist E) (presentLoc : E → Location) (a b : E) : ℚ :=
  swapCost net presentLoc a (presentLoc a) (presentLoc b) +
    swapCost net presentLoc b (presentLoc b) (presentLoc a)

section Sums

theorem sum_map_eq_sum {l : List E} {s : Finset E} (g : E → ℚ) (hl : ∀ f ∈ l, f ∈ s) :
    (l.map g).sum = ∑ f ∈ s, (l.count f : ℚ) * g f := by
  rw [Finset.sum_list_map_count]
  simp only [nsmul_eq_mul]
  apply Finset.sum_subset
  · intro f hf
    exact hl f (List.mem_toFinset.mp hf)
  · intro f _ hf
    rw [List.count_eq_zero_of_not_mem (by simpa using hf), Nat.cast_zero, zero_mul]

variable [Fintype E] {a b : E}

theorem sum_apart (hab : a ≠ b) (g : E → ℚ) : ∑ e, g e = g a + g b + ∑ e ∈ {a, b}ᶜ, g e := by
  rw [← Finset.sum_add_sum_compl {a, b} g, Finset.sum_pair hab]

theorem sum_sum_apart (hab : a ≠ b) {F : E → E → ℚ} (hSymm : ∀ e f, F e f = F f e) :
    ∑ e, ∑ f, F e f = F a a + F b b + 2 * F a b +
      2 * (∑ f ∈ {a, b}ᶜ, F a f + ∑ f ∈ {a, b}ᶜ, F b f) + ∑ e ∈ {a, b}ᶜ, ∑ f ∈ {a, b}ᶜ, F e f := by
  have hRow : ∀ e, ∑ f, F e f = F a e + F b e + ∑ f ∈ {a, b}ᶜ, F e f := fun e => by
    rw [sum_apart hab, hSymm e a, hSymm e b]
  simp only [hRow]
  rw [sum_apart hab, Finset.sum_add_distrib, Finset.sum_add_distrib, hSymm b a]
  ring

theorem sum_map_eq (l : List E) (g : E → ℚ) : (l.map g).sum = ∑ f, (l.count f : ℚ) * g f :=
  sum_map_eq_sum g fun f _ => Finset.mem_univ f

end Sums

section Costs

/-- The distance that the cost of a net is. -/
def distance (k l : Location) : ℚ := addDistance 0 k l

theorem addDistance_eq (cost : ℚ) (k l : Location) : addDistance cost k l = cost + distance k l := by
  simp only [distance, addDistance]
  ring

theorem distance_comm (k l : Location) : distance k l = distance l k := by
  simp only [distance, addDistance, Int.cast_sub]
  rw [abs_sub_comm, abs_sub_comm (k.y : ℚ)]

theorem distance_self (l : Location) : distance l l = 0 := by simp [distance, addDistance]

theorem distance_pos {k l : Location} (h : k ≠ l) : 0 < distance k l := by
  have hParts : k.x - l.x ≠ 0 ∨ k.y - l.y ≠ 0 := by
    by_contra hBoth
    rw [not_or, not_not, not_not, sub_eq_zero, sub_eq_zero] at hBoth
    exact h (Location.ext hBoth.1 hBoth.2)
  simp only [distance, addDistance, zero_add]
  cases hParts with
  | inl hx => exact add_pos_of_pos_of_nonneg (abs_pos.mpr (Int.cast_ne_zero.mpr hx)) (abs_nonneg _)
  | inr hy => exact add_pos_of_nonneg_of_pos (abs_nonneg _) (abs_pos.mpr (Int.cast_ne_zero.mpr hy))

theorem foldl_addDistance {α : Type*} (loc : Location) (presentLoc : α → Location) (l : List α)
    (cost : ℚ) : l.foldl (fun cost f => addDistance cost loc (presentLoc f)) cost =
      cost + (l.map fun f => distance loc (presentLoc f)).sum := by
  induction l generalizing cost with
  | nil => simp
  | cons f l ih =>
    rw [List.foldl_cons, ih, addDistance_eq, List.map_cons, List.sum_cons, add_assoc]

theorem foldl_addDistances {α : Type*} (oldLoc newLoc : Location) (presentLoc : α → Location)
    (l : List α) (cost : ℚ × ℚ) :
    l.foldl (fun cost f => (addDistance cost.1 oldLoc (presentLoc f),
        addDistance cost.2 newLoc (presentLoc f))) cost =
      (cost.1 + (l.map fun f => distance oldLoc (presentLoc f)).sum,
        cost.2 + (l.map fun f => distance newLoc (presentLoc f)).sum) := by
  induction l generalizing cost with
  | nil => simp
  | cons f l ih =>
    rw [List.foldl_cons, ih, addDistance_eq, addDistance_eq, List.map_cons, List.sum_cons, List.map_cons,
      List.sum_cons, add_assoc, add_assoc]

theorem foldl_add {α : Type*} (g : α → ℚ) (l : List α) (s : ℚ) :
    l.foldl (fun rval e => rval + g e) s = s + (l.map g).sum := by
  induction l generalizing s with
  | nil => simp
  | cons e l ih => rw [List.foldl_cons, ih, List.map_cons, List.sum_cons, add_assoc]

/-- The number of nets between two elements; a net from an element to itself counts twice. -/
def Netlist.wires (net : Netlist E) (e f : E) : ℕ := (net.fanin e ++ net.fanout e).count f

theorem Netlist.wires_eq (net : Netlist E) (e f : E) :
    net.wires e f = (net.fanin e).count f + (net.fanin f).count e := by
  rw [wires, List.count_append, net.converse f e]

theorem Netlist.wires_comm (net : Netlist E) (e f : E) : net.wires e f = net.wires f e := by
  rw [wires_eq, wires_eq, add_comm]

theorem Netlist.wires_blank (net : Netlist E) {e : E} (he : e ∉ net.named) (f : E) :
    net.wires e f = 0 := by
  rw [wires_eq, List.count_eq_zero_of_not_mem fun hf => he (net.nets e f hf).1,
    List.count_eq_zero_of_not_mem fun hf => he (net.nets f e hf).2]

theorem swapCost_eq (net : Netlist E) (presentLoc : E → Location) (e : E) (oldLoc newLoc : Location) :
    swapCost net presentLoc e oldLoc newLoc =
      routingCostGivenLoc net presentLoc e newLoc - routingCostGivenLoc net presentLoc e oldLoc := by
  simp only [swapCost, routingCostGivenLoc, foldl_addDistances, foldl_addDistance, zero_add]

variable [Fintype E]

theorem routingCostGivenLoc_eq (net : Netlist E) (presentLoc : E → Location) (e : E) (loc : Location) :
    routingCostGivenLoc net presentLoc e loc =
      ∑ f, (net.wires e f : ℚ) * distance loc (presentLoc f) := by
  have hSum := sum_map_eq (net.fanin e ++ net.fanout e) fun f => distance loc (presentLoc f)
  rw [List.map_append, List.sum_append] at hSum
  simp only [routingCostGivenLoc, foldl_addDistance, zero_add]
  exact hSum

theorem totalRoutingCost_eq (net : Netlist E) (presentLoc : E → Location) :
    totalRoutingCost net presentLoc =
      (∑ e, ∑ f, (net.wires e f : ℚ) * distance (presentLoc e) (presentLoc f)) / 2 := by
  rw [totalRoutingCost, foldl_add, zero_add, sum_map_eq]
  congr 1
  apply Finset.sum_congr rfl
  intro e _
  rw [routingCostGivenLoc_eq]
  cases Decidable.em (e ∈ net.named) with
  | inl he => rw [List.count_eq_one_of_mem net.nodup he, Nat.cast_one, one_mul]
  | inr he => simp [net.wires_blank he]

end Costs

section Swaps

variable {a b : E}

theorem swapLocations_left (presentLoc : E → Location) (hab : a ≠ b) :
    swapLocations presentLoc a b a = presentLoc b := by
  rw [swapLocations, Function.update_of_ne hab, Function.update_self]

theorem swapLocations_right (presentLoc : E → Location) :
    swapLocations presentLoc a b b = presentLoc a := by
  rw [swapLocations, Function.update_self]

variable [Fintype E]

theorem swapLocations_other (presentLoc : E → Location) {f : E} (hf : f ∈ ({a, b} : Finset E)ᶜ) :
    swapLocations presentLoc a b f = presentLoc f := by
  rw [Finset.mem_compl, Finset.mem_insert, Finset.mem_singleton, not_or] at hf
  rw [swapLocations, Function.update_of_ne hf.2, Function.update_of_ne hf.1]

/-- Each move is costed with the other element where it was, so a net between the two
counts as if it shrank to nothing, and a net of one of them to itself as if it grew. -/
theorem delta_excess (net : Netlist E) (presentLoc : E → Location) (hab : a ≠ b) :
    calculateDeltaRoutingCost net presentLoc a b =
      totalRoutingCost net (swapLocations presentLoc a b) - totalRoutingCost net presentLoc +
        (net.wires a a + net.wires b b - 2 * net.wires a b) *
          distance (presentLoc a) (presentLoc b) := by
  have hSymm : ∀ (loc : E → Location) e f,
      (net.wires e f : ℚ) * distance (loc e) (loc f) = net.wires f e * distance (loc f) (loc e) :=
    fun loc e f => by rw [net.wires_comm, distance_comm]
  have hRest : ∑ e ∈ {a, b}ᶜ, ∑ f ∈ {a, b}ᶜ, (net.wires e f : ℚ) *
        distance (swapLocations presentLoc a b e) (swapLocations presentLoc a b f) =
      ∑ e ∈ {a, b}ᶜ, ∑ f ∈ {a, b}ᶜ, (net.wires e f : ℚ) * distance (presentLoc e) (presentLoc f) := by
    apply Finset.sum_congr rfl
    intro e he
    apply Finset.sum_congr rfl
    intro f hf
    rw [swapLocations_other presentLoc he, swapLocations_other presentLoc hf]
  have hOthers : ∀ e loc, ∑ f ∈ {a, b}ᶜ, (net.wires e f : ℚ) *
        distance loc (swapLocations presentLoc a b f) =
      ∑ f ∈ {a, b}ᶜ, (net.wires e f : ℚ) * distance loc (presentLoc f) := by
    intro e loc
    apply Finset.sum_congr rfl
    intro f hf
    rw [swapLocations_other presentLoc hf]
  rw [totalRoutingCost_eq, totalRoutingCost_eq, sum_sum_apart hab (hSymm _), sum_sum_apart hab (hSymm _),
    hRest, swapLocations_left presentLoc hab, swapLocations_right, hOthers, hOthers,
    calculateDeltaRoutingCost, swapCost_eq, swapCost_eq]
  simp only [routingCostGivenLoc_eq, sum_apart hab fun f => _, distance_self]
  rw [net.wires_comm b a, distance_comm (presentLoc b) (presentLoc a)]
  ring

/-- The change of the cost is met just if as many nets go from `a` and `b` to themselves
as between the two. -/
theorem delta_eq_iff (net : Netlist E) (p : Placement E Location) (hab : a ≠ b) :
    calculateDeltaRoutingCost net p.loc a b =
        totalRoutingCost net (swapLocations p.loc a b) - totalRoutingCost net p.loc ↔
      (net.fanin a).count a + (net.fanin b).count b =
        (net.fanin a).count b + (net.fanin b).count a := by
  have hDistance := (distance_pos (p.injective.ne hab)).ne'
  rw [delta_excess net p.loc hab, add_eq_left, mul_eq_zero, or_iff_left hDistance, net.wires_eq a a,
    net.wires_eq b b, net.wires_eq a b]
  push_cast
  constructor
  · intro h
    have hHalf : (((net.fanin a).count a + (net.fanin b).count b : ℕ) : ℚ) =
        ((net.fanin a).count b + (net.fanin b).count a : ℕ) := by
      push_cast
      linarith
    exact_mod_cast hHalf
  · intro h
    have hCast : ((net.fanin a).count a : ℚ) + (net.fanin b).count b =
        (net.fanin a).count b + (net.fanin b).count a := by
      exact_mod_cast h
    linarith

end Swaps

section Chips

/-- The first element is fed by the second; the other two are blank. -/
def oneNet : Netlist (Fin 4) where
  named := [0, 1]
  fanin e := if e = 0 then [1] else []
  fanout e := if e = 1 then [0] else []
  nodup := by decide
  converse := by decide
  nets := by decide

/-- A chip of two rows and two columns. -/
def corners : Placement (Fin 4) Location where
  loc e := ⟨e.val / 2, e.val % 2⟩
  injective := by decide

theorem apart_delta_iff :
    calculateDeltaRoutingCost oneNet corners.loc 0 2 =
        totalRoutingCost oneNet (swapLocations corners.loc 0 2) - totalRoutingCost oneNet corners.loc ↔
      (oneNet.fanin 0).count 0 + (oneNet.fanin 2).count 2 =
        (oneNet.fanin 0).count 2 + (oneNet.fanin 2).count 0 :=
  delta_eq_iff oneNet corners (by decide)

theorem joined_delta :
    totalRoutingCost oneNet (swapLocations corners.loc 0 1) - totalRoutingCost oneNet corners.loc = 0 ∧
      calculateDeltaRoutingCost oneNet corners.loc 0 1 = -2 := by
  decide +kernel

end Chips

section Calls

open Relation

variable {E : Type*} [LinearOrder E]

/-- A step of a thread that is alone. -/
def CallStep (s t : Mem E Location × Local E Location) : Prop := SwapStep s.1 s.2 t.1 t.2

theorem swap_call (m : Mem E Location) {first last : E} {k l : Location} (hNe : last ≠ first)
    (hFirst : m first = some k) (hLast : m last = some l) :
    ReflTransGen CallStep (m, .get first last .checkout)
      (Function.update (Function.update m last (some k)) first (some l), .idle) := by
  have hLast' : Function.update m first none last = some l := by
    rw [Function.update_of_ne hNe, hLast]
  have hStored : Function.update (Function.update (Function.update m first none) last (some k)) first
      (some l) = Function.update (Function.update m last (some k)) first (some l) := by
    rw [Function.update_comm hNe.symm, Function.update_idem]
  have hLoad : CallStep (m, .get first last .checkout) (m, .cmpset first last .checkout k) :=
    .load m first last .checkout k hFirst
  have hCheckout : CallStep (m, .cmpset first last .checkout k)
      (Function.update m first none, .get first last (.exchange k)) :=
    .set m first last .checkout k hFirst
  have hLoad' : CallStep (Function.update m first none, .get first last (.exchange k))
      (Function.update m first none, .cmpset first last (.exchange k) l) :=
    .load _ first last (.exchange k) l hLast'
  have hExchange : CallStep (Function.update m first none, .cmpset first last (.exchange k) l)
      (Function.update (Function.update m first none) last (some k), .checkin first l) :=
    .set _ first last (.exchange k) l hLast'
  have hCheckin : CallStep (Function.update (Function.update m first none) last (some k), .checkin first l)
      (Function.update (Function.update (Function.update m first none) last (some k)) first (some l),
        .idle) := .store _ first l
  rw [← hStored]
  exact ((((ReflTransGen.single hLoad).tail hCheckout).tail hLoad').tail hExchange).tail hCheckin

theorem swapLocations_call (presentLoc : E → Location) {a b : E} (hab : a ≠ b) :
    ReflTransGen CallStep (fun e => some (presentLoc e), startSwap a b)
      (fun e => some (swapLocations presentLoc a b e), .idle) := by
  have hUpdate : ∀ (f : E → Location) (e : E) (l : Location),
      (fun x => some (Function.update f e l x)) = Function.update (fun x => some (f x)) e (some l) :=
    fun f e l => by
      funext x
      rw [Function.apply_update (fun _ => some)]
  simp only [swapLocations, hUpdate, startSwap]
  cases Decidable.em (a < b) with
  | inl hLt =>
    rw [if_pos hLt, Function.update_comm hab]
    exact swap_call _ hab.symm rfl rfl
  | inr hGe =>
    rw [if_neg hGe]
    exact swap_call _ hab rfl rfl

end Calls

end Trident.Canneal
