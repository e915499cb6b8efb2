import Mathlib.Data.Set.Card
import Obz.Foundation.CumulativeSelection
import Obz.WeightedSet.Histories

/-!
# `random` selects in proportion to the weights

The scan adds up 64-bit weights in the order in which the map iterates. With an
exact total the running sum never wraps, every drawn target is below the total,
and each stored value owns a half-open interval as long as its weight.
-/
namespace Obz.WeightedSet

open Foundation CumulativeSelection

variable {κ T : Type}

/-- The entries with their weights as integers. -/
def weighed (order : List (Sigma fun _ : T => UInt64)) : List (T × ℕ) :=
  order.map fun e => (e.1, e.2.toNat)

/-- The running sum of `random` once the loop has passed these entries. -/
def running (passed : List (Sigma fun _ : T => UInt64)) : UInt64 :=
  passed.foldl (fun cumulative e => cumulative + e.2) 0

theorem storedSum_eq_total (s : WeightedSet T) {order : List (Sigma fun _ : T => UInt64)}
    (horder : order.Perm s.weights.entries) : total (weighed order) = s.storedSum := by
  rw [total, weighed, List.map_map, storedSum]
  exact (horder.map _).sum_eq

theorem total_weighed_cons (e : Sigma fun _ : T => UInt64)
    (order : List (Sigma fun _ : T => UInt64)) :
    total (weighed (e :: order)) = e.2.toNat + total (weighed order) := total_cons _ _ _

/-- As long as the entries fit, adding one does not wrap. -/
theorem toNat_add_entry {cumulative : UInt64} {e : Sigma fun _ : T => UInt64}
    {order : List (Sigma fun _ : T => UInt64)}
    (hfits : cumulative.toNat + total (weighed (e :: order)) < 2 ^ 64) :
    (cumulative + e.2).toNat = cumulative.toNat + e.2.toNat := by
  rw [total_weighed_cons] at hfits
  exact toNat_add_of_fits (by rw [toNat_maxWeight]; omega)

theorem toNat_foldl (passed : List (Sigma fun _ : T => UInt64)) (cumulative : UInt64)
    (hfits : cumulative.toNat + total (weighed passed) < 2 ^ 64) :
    (passed.foldl (fun cumulative e => cumulative + e.2) cumulative).toNat =
      cumulative.toNat + total (weighed passed) := by
  induction passed generalizing cumulative with
  | nil => rfl
  | cons e passed ih =>
    have hadd := toNat_add_entry hfits
    rw [total_weighed_cons] at hfits ⊢
    rw [List.foldl_cons, ih _ (by omega), hadd, Nat.add_assoc]

theorem toNat_running {passed : List (Sigma fun _ : T => UInt64)}
    (hfits : total (weighed passed) < 2 ^ 64) : (running passed).toNat = total (weighed passed) :=
  (toNat_foldl passed 0 (by rwa [UInt64.toNat_zero, Nat.zero_add])).trans (Nat.zero_add _)

/-- The scan with a running sum is the selection by cumulative weight. -/
theorem scan_eq (target : UInt64) (order : List (Sigma fun _ : T => UInt64)) (cumulative : UInt64)
    (hfits : cumulative.toNat + total (weighed order) < 2 ^ 64)
    (hpassed : cumulative.toNat ≤ target.toNat) :
    scan target order cumulative =
      match select (weighed order) (target.toNat - cumulative.toNat) with
      | some value => .ok value
      | none => .error selectionFailed := by
  induction order generalizing cumulative with
  | nil => rfl
  | cons e order ih =>
    have hadd := toNat_add_entry hfits
    rw [total_weighed_cons] at hfits
    have hiff : target < cumulative + e.2 ↔ target.toNat - cumulative.toNat < e.2.toNat := by
      rw [UInt64.lt_iff_toNat_lt, hadd]
      omega
    rw [scan, weighed, List.map_cons, ← weighed, select]
    by_cases hlt : target < cumulative + e.2
    · simp only [hlt, hiff.mp hlt, if_true]
    · have hge : ¬ target.toNat - cumulative.toNat < e.2.toNat := fun h => hlt (hiff.mpr h)
      simp only [hlt, hge, if_false]
      rw [ih (cumulative + e.2) (by omega) (by omega), hadd, Nat.sub_sub]

/-- `running` is the sum the loop has formed when it gets past these entries. -/
theorem scan_append (target : UInt64) (passed rest : List (Sigma fun _ : T => UInt64))
    (cumulative : UInt64) (hfits : cumulative.toNat + total (weighed passed) < 2 ^ 64)
    (hpassed : cumulative.toNat + total (weighed passed) ≤ target.toNat) :
    scan target (passed ++ rest) cumulative =
      scan target rest (passed.foldl (fun cumulative e => cumulative + e.2) cumulative) := by
  induction passed generalizing cumulative with
  | nil => rfl
  | cons e passed ih =>
    have hadd := toNat_add_entry hfits
    rw [total_weighed_cons] at hfits hpassed
    have hge : ¬ target < cumulative + e.2 := by
      rw [UInt64.lt_iff_toNat_lt, hadd]
      omega
    rw [List.cons_append, scan, if_neg hge, ih _ (by omega) (by omega), List.foldl_cons]

theorem scan_eq_ok_iff {target : UInt64} {order : List (Sigma fun _ : T => UInt64)}
    (hfits : total (weighed order) < 2 ^ 64) (value : T) :
    scan target order 0 = .ok value ↔ select (weighed order) target.toNat = some value := by
  rw [scan_eq target order 0 (by rwa [UInt64.toNat_zero, Nat.zero_add]) (Nat.zero_le _)]
  cases h : select (weighed order) (target.toNat - (0 : UInt64).toNat) with
  | none => simp [show select (weighed order) target.toNat = none from h]
  | some v => simp [show select (weighed order) target.toNat = some v from h]

/-- Below the sum of the stored weights every target selects a stored value, and
from there on the scan runs off the end. -/
theorem scan_total (s : WeightedSet T) {order : List (Sigma fun _ : T => UInt64)}
    (horder : order.Perm s.weights.entries) (hfits : s.storedSum < 2 ^ 64) (target : UInt64) :
    (target.toNat < s.storedSum → ∃ value ∈ s.weights, scan target order 0 = .ok value) ∧
      (s.storedSum ≤ target.toNat → scan target order 0 = .error selectionFailed) := by
  rw [← storedSum_eq_total s horder] at hfits ⊢
  constructor
  · intro htarget
    obtain ⟨value, hvalue⟩ := exists_select htarget
    refine ⟨value, ?_, (scan_eq_ok_iff hfits value).mpr hvalue⟩
    have hmem := select_mem hvalue
    rw [weighed, List.map_map] at hmem
    obtain ⟨e, he, rfl⟩ := List.mem_map.mp hmem
    exact AList.mem_keys.mpr (List.mem_keys_of_mem (horder.subset he))
  · intro htarget
    rw [scan_eq target order 0 (by rwa [UInt64.toNat_zero, Nat.zero_add]) (Nat.zero_le _),
      UInt64.toNat_zero, Nat.sub_zero, select_eq_none htarget]

/-- The targets that select one value form an interval. -/
theorem scan_interval [DecidableEq T] {s : WeightedSet T}
    {order : List (Sigma fun _ : T => UInt64)} (horder : order.Perm s.weights.entries)
    (hfits : s.storedSum < 2 ^ 64) {value : T} {weight : UInt64}
    (hv : s.weights.lookup value = some weight) :
    ∃ first, first + weight.toNat ≤ s.storedSum ∧ ∀ target : UInt64,
      scan target order 0 = .ok value ↔ target.toNat ∈ Finset.Ico first (first + weight.toNat) := by
  have hentry : (⟨value, weight⟩ : Sigma fun _ : T => UInt64) ∈ order :=
    horder.symm.subset (AList.mem_lookup_iff.mp hv)
  obtain ⟨before, later, rfl⟩ := List.append_of_mem hentry
  have hkeys : (before ++ ⟨value, weight⟩ :: later).NodupKeys :=
    (List.perm_nodupKeys horder).mpr s.weights.nodupKeys
  have hnodup : ((before ++ ⟨value, weight⟩ :: later).map Sigma.fst).Nodup := hkeys
  rw [List.map_append, List.map_cons, List.nodup_middle, List.nodup_cons, List.mem_append,
    not_or] at hnodup
  have hsplit : weighed (before ++ ⟨value, weight⟩ :: later) =
      weighed before ++ (value, weight.toNat) :: weighed later := by
    simp [weighed]
  have hsum := storedSum_eq_total s horder
  rw [hsplit, total_append, total_cons] at hsum
  refine ⟨total (weighed before), by omega, fun target => ?_⟩
  rw [scan_eq_ok_iff (by rw [hsplit, total_append, total_cons]; omega), hsplit]
  refine select_eq_some_iff ?_ ?_ _
  · simpa [weighed] using hnodup.1.1
  · simpa [weighed] using hnodup.1.2

/-- As many targets as the value weighs select it. -/
theorem scan_count [DecidableEq T] {s : WeightedSet T}
    {order : List (Sigma fun _ : T => UInt64)} (horder : order.Perm s.weights.entries)
    (hfits : s.storedSum < 2 ^ 64) {value : T} {weight : UInt64}
    (hv : s.weights.lookup value = some weight) :
    {target : UInt64 | target.toNat < s.storedSum ∧ scan target order 0 = .ok value}.ncard =
      weight.toNat := by
  obtain ⟨first, hlast, hinterval⟩ := scan_interval horder hfits hv
  have himage : Set.image UInt64.toNat
      {target | target.toNat < s.storedSum ∧ scan target order 0 = .ok value} =
        ↑(Finset.Ico first (first + weight.toNat)) := by
    ext t
    constructor
    · rintro ⟨target, ⟨-, hscan⟩, rfl⟩
      exact (hinterval target).mp hscan
    · intro ht
      have hbounds := Finset.mem_Ico.mp (Finset.mem_coe.mp ht)
      have ht64 : t < 2 ^ 64 := by omega
      have hnat : (UInt64.ofNat t).toNat = t := UInt64.toNat_ofNat_of_lt' ht64
      refine ⟨UInt64.ofNat t, ⟨by omega, (hinterval _).mpr ?_⟩, hnat⟩
      rwa [hnat]
  have hinjective : Function.Injective UInt64.toNat := fun _ _ => UInt64.toNat_inj.mp
  rw [← Set.ncard_image_of_injective _ hinjective, himage, Set.ncard_coe_finset,
    Nat.card_Ico, Nat.add_sub_cancel_left]

/-! `random` on an object with an exact total. -/

/-- The loop adds without wrapping, in this order of the entries. -/
def AddsExactly (order : List (Sigma fun _ : T => UInt64)) : Prop :=
  ∀ passed e rest, order = passed ++ e :: rest →
    (running passed).toNat + e.2.toNat < 2 ^ 64 ∧
      ∀ target : UInt64, running passed ≤ target →
        scan target order 0 = scan target (e :: rest) (running passed)

theorem addsExactly {order : List (Sigma fun _ : T => UInt64)}
    (hfits : total (weighed order) < 2 ^ 64) : AddsExactly order := by
  rintro passed e rest rfl
  have hsum : total (weighed (passed ++ e :: rest)) =
      total (weighed passed) + (e.2.toNat + total (weighed rest)) := by
    simp [weighed]
  have hrunning : (running passed).toNat = total (weighed passed) :=
    toNat_running (by omega)
  refine ⟨by omega, fun target htarget => ?_⟩
  rw [UInt64.le_iff_toNat_le, hrunning] at htarget
  exact scan_append target passed (e :: rest) 0 (by rw [UInt64.toNat_zero]; omega)
    (by rwa [UInt64.toNat_zero, Nat.zero_add])

theorem random_target {s : WeightedSet T} (hne : s.empty = false)
    (order : List (Sigma fun _ : T => UInt64)) (target : UInt64) :
    s.random order (fun _ _ => target) = scan target order 0 := by
  simp [random, hne]

namespace Exact

variable [DecidableEq T] {s : WeightedSet T}

theorem total_eq (h : Exact s) : s.totalWeight.toNat = s.storedSum := by
  rw [h.total, storedSum_eq_degree, Nat.zero_add]

theorem storedSum_lt (h : Exact s) : s.storedSum < 2 ^ 64 :=
  h.total_eq ▸ s.totalWeight.toNat_lt

theorem total_pos (h : Exact s) (hne : s.empty = false) : 0 < s.totalWeight := by
  obtain ⟨e, he⟩ : ∃ e, e ∈ s.weights.entries := by
    refine List.exists_mem_of_ne_nil _ fun hnil => ?_
    simp [empty, hnil] at hne
  have hv : s.weights.lookup e.1 = some e.2 := AList.mem_lookup_iff.mpr he
  exact UInt64.lt_of_lt_of_le (h.positive _ _ hv) (h.lookup_le hv)

/-- Whatever is drawn within the bounds is a target that selects. -/
theorem random_ok (h : Exact s) (hne : s.empty = false)
    {order : List (Sigma fun _ : T => UInt64)} (horder : order.Perm s.weights.entries)
    {distribution : UInt64 → UInt64 → UInt64}
    (hbounds : ∀ lo hi, lo ≤ hi → lo ≤ distribution lo hi ∧ distribution lo hi ≤ hi) :
    ∃ value ∈ s.weights, s.random order distribution = .ok value := by
  have hpos := h.total_pos hne
  have hle := (hbounds 0 (s.totalWeight - 1) UInt64.zero_le).2
  have hone : (1 : UInt64) ≤ s.totalWeight := by
    rw [UInt64.lt_iff_toNat_lt] at hpos
    rwa [UInt64.le_iff_toNat_le]
  have htarget : (distribution 0 (s.totalWeight - 1)).toNat < s.storedSum := by
    rw [UInt64.lt_iff_toNat_lt, UInt64.toNat_zero] at hpos
    rw [UInt64.le_iff_toNat_le, UInt64.toNat_sub_of_le _ _ hone, UInt64.toNat_one] at hle
    rw [← h.total_eq]
    omega
  obtain ⟨value, hmem, hscan⟩ := (scan_total s horder h.storedSum_lt _).1 htarget
  exact ⟨value, hmem, by simpa [random, hne] using hscan⟩

theorem random_count (h : Exact s) (hne : s.empty = false)
    {order : List (Sigma fun _ : T => UInt64)} (horder : order.Perm s.weights.entries)
    {value : T} {weight : UInt64} (hv : s.weightOf value = .ok weight) :
    {target : UInt64 | target < s.totalWeight ∧
      s.random order (fun _ _ => target) = .ok value}.ncard = weight.toNat := by
  have hlookup : s.weights.lookup value = some weight := by
    unfold weightOf at hv
    cases hl : s.weights.lookup value with
    | none => simp [hl] at hv
    | some found => simpa [hl] using hv
  simp only [random_target hne, UInt64.lt_iff_toNat_lt, h.total_eq]
  exact scan_count horder h.storedSum_lt hlookup

end Exact

/-- After every history without moves, in whatever order the map iterates: a draw
within the bounds selects a stored value, the running sum never wraps, and each
value is selected by as many of the possible targets as it weighs. -/
theorem random_selects_in_proportion [DecidableEq κ] [DecidableEq T]
    (history : List (Command κ T)) (hmove : ∀ c ∈ history, c.isMove = false) (k : κ)
    (hne : (after history k).empty = false) (order : List (Sigma fun _ : T => UInt64))
    (horder : order.Perm (after history k).weights.entries) :
    0 < (after history k).totalWeight ∧ AddsExactly order ∧
      (∀ distribution : UInt64 → UInt64 → UInt64,
        (∀ lo hi, lo ≤ hi → lo ≤ distribution lo hi ∧ distribution lo hi ≤ hi) →
        ∃ value ∈ (after history k).weights,
          (after history k).random order distribution = .ok value) ∧
      (∀ target < (after history k).totalWeight, ∃ value ∈ (after history k).weights,
        (after history k).random order (fun _ _ => target) = .ok value) ∧
      ∀ value weight, (after history k).weightOf value = .ok weight →
        {target : UInt64 | target < (after history k).totalWeight ∧
          (after history k).random order (fun _ _ => target) = .ok value}.ncard =
            weight.toNat := by
  have h : Exact (after history k) := (agrees_after hmove k).1
  refine ⟨h.total_pos hne, addsExactly ?_, fun _ hb => h.random_ok hne horder hb, ?_,
    fun _ _ hv => h.random_count hne horder hv⟩
  · rw [storedSum_eq_total _ horder]
    exact h.storedSum_lt
  · intro target htarget
    rw [UInt64.lt_iff_toNat_lt, h.total_eq] at htarget
    rw [random_target hne]
    exact (scan_total _ horder h.storedSum_lt target).1 htarget

theorem random_selects_in_proportion_treasure :
    let history : List (Command ℕ String) :=
      [.call 0 (.insert "coin" 80), .call 0 (.insert "gem" 15), .call 0 (.insert "relic" 5)]
    {target : UInt64 | target < (after history 0).totalWeight ∧
      (after history 0).random [⟨"gem", 15⟩, ⟨"relic", 5⟩, ⟨"coin", 80⟩]
        (fun _ _ => target) = .ok "gem"}.ncard = 15 := by
  intro history
  have h := random_selects_in_proportion history (by decide) 0 (by decide)
    [⟨"gem", 15⟩, ⟨"relic", 5⟩, ⟨"coin", 80⟩] (by decide)
  exact h.2.2.2.2 "gem" 15 (by decide)

end Obz.WeightedSet
