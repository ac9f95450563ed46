import Trident.Gapbs.Builder

/-! # Prefix sums

Both prefix sums leave in every cell the sum of the degrees before it.
-/

namespace Trident.Gapbs

variable {degrees sums : Nat → Int} {size : Nat}

theorem scanDegrees_spec (degrees sums : Nat → Int) (total : Int) (n count : Nat) :
    (scanDegrees degrees sums total n count).2 = total + ∑ i ∈ Finset.Ico n (n + count), degrees i ∧
      (∀ k, n ≤ k → k < n + count →
        (scanDegrees degrees sums total n count).1 k = total + ∑ i ∈ Finset.Ico n k, degrees i) ∧
      ∀ k, k < n ∨ n + count ≤ k → (scanDegrees degrees sums total n count).1 k = sums k := by
  induction count generalizing sums total n with
  | zero =>
    refine ⟨?_, fun k hLow hHigh => by omega, fun _ _ => rfl⟩
    rw [scanDegrees, Nat.add_zero, Finset.Ico_self, Finset.sum_empty, Int.add_zero]
  | succ count ih =>
    have hFirst : ∀ m, n < m → total + ∑ i ∈ Finset.Ico n m, degrees i =
        total + degrees n + ∑ i ∈ Finset.Ico (n + 1) m, degrees i := by
      intro m hm
      rw [Finset.sum_eq_sum_Ico_succ_bot hm, Int.add_assoc]
    obtain ⟨hTotal, hInside, hOutside⟩ := ih (Function.update sums n total) (total + degrees n) (n + 1)
    refine ⟨?_, fun k hLow hHigh => ?_, fun k hk => ?_⟩
    · rw [scanDegrees, hTotal, show n + (count + 1) = n + 1 + count by omega, hFirst _ (by omega)]
    · rw [scanDegrees]
      obtain rfl | hNext := Nat.eq_or_lt_of_le hLow
      · rw [hOutside n (Or.inl (Nat.lt_succ_self n)), Function.update_self, Finset.Ico_self,
          Finset.sum_empty, Int.add_zero]
      · rw [hInside k hNext (by omega), hFirst k hNext]
    · rw [scanDegrees, hOutside k (by omega), Function.update_of_ne (by omega)]

theorem prefixSum_eq (sums degrees : Nat → Int) {k : Nat} (hk : k ≤ size) :
    prefixSum sums size degrees k = ∑ i ∈ Finset.range k, degrees i := by
  obtain ⟨hTotal, hInside, _⟩ := scanDegrees_spec degrees sums 0 0 size
  rw [Nat.zero_add, Int.zero_add, ← Finset.range_eq_Ico] at hTotal
  rw [prefixSum]
  obtain rfl | hLess := Nat.eq_or_lt_of_le hk
  · rw [Function.update_self, hTotal]
  · rw [Function.update_of_ne hLess.ne, hInside k (Nat.zero_le k) (by omega), Int.zero_add,
      ← Finset.range_eq_Ico]

theorem blockSize_pos : 0 < blockSize := Nat.two_pow_pos 20

theorem lt_size_of_block {block : Nat} (h : block < (size + blockSize - 1) / blockSize) :
    block * blockSize < size := by
  have hLe := (Nat.le_div_iff_mul_le blockSize_pos).mp (Nat.succ_le_of_lt h)
  rw [Nat.succ_mul] at hLe
  have hPos := blockSize_pos
  omega

theorem size_le_blocks (size : Nat) : size ≤ (size + blockSize - 1) / blockSize * blockSize := by
  have hMod := Nat.mod_lt (size + blockSize - 1) blockSize_pos
  have hDiv := Nat.div_add_mod' (size + blockSize - 1) blockSize
  omega

theorem sum_localSum (degrees : Nat → Int) {block : Nat} (h : block ≤ (size + blockSize - 1) / blockSize) :
    ∑ b ∈ Finset.range block, localSum size degrees b =
      ∑ i ∈ Finset.range (min (block * blockSize) size), degrees i := by
  induction block with
  | zero => rw [Nat.zero_mul, Nat.zero_min, Finset.range_zero, Finset.sum_empty, Finset.sum_empty]
  | succ block ih =>
    have hStart : block * blockSize < size := lt_size_of_block h
    have hLe : block * blockSize ≤ blockEnd size block := by
      rw [blockEnd, Nat.succ_mul]
      omega
    rw [Finset.sum_range_succ, ih (Nat.le_of_succ_le h), Nat.min_eq_left hStart.le, localSum,
      Finset.sum_range_add_sum_Ico _ hLe, blockEnd]

theorem scanBlocks_spec {bulkPrefix : Nat → Int} {m : Nat} (hBlocks : m ≤ (size + blockSize - 1) / blockSize)
    (hBulk : ∀ block < m, bulkPrefix block = ∑ i ∈ Finset.range (block * blockSize), degrees i) :
    ∀ j < min (m * blockSize) size,
      (List.range m).foldl (fun sums block =>
        (scanDegrees degrees sums (bulkPrefix block) (block * blockSize)
          (blockEnd size block - block * blockSize)).1) sums j = ∑ i ∈ Finset.range j, degrees i := by
  induction m with
  | zero =>
    intro j hj
    omega
  | succ m ih =>
    intro j hj
    have hStart : m * blockSize < size := lt_size_of_block hBlocks
    have hEnd : m * blockSize + (blockEnd size m - m * blockSize) = min ((m + 1) * blockSize) size := by
      rw [blockEnd, Nat.succ_mul]
      omega
    rw [List.range_succ, List.foldl_append, List.foldl_cons, List.foldl_nil]
    obtain ⟨_, hInside, hOutside⟩ := scanDegrees_spec degrees
      ((List.range m).foldl (fun sums block =>
        (scanDegrees degrees sums (bulkPrefix block) (block * blockSize)
          (blockEnd size block - block * blockSize)).1) sums)
      (bulkPrefix m) (m * blockSize) (blockEnd size m - m * blockSize)
    rw [hEnd] at hInside
    rcases Nat.lt_or_ge j (m * blockSize) with hBefore | hFrom
    · rw [hOutside j (Or.inl hBefore)]
      have hDone : j < min (m * blockSize) size := lt_min hBefore (hBefore.trans hStart)
      exact ih (Nat.le_of_succ_le hBlocks) (fun block hBlock => hBulk block (by omega)) j hDone
    · rw [hInside j hFrom hj, hBulk m (Nat.lt_succ_self m), Finset.sum_range_add_sum_Ico _ hFrom]

theorem parallelPrefixSum_eq (sums degrees : Nat → Int) {k : Nat} (hk : k ≤ size) :
    parallelPrefixSum sums size degrees k = ∑ i ∈ Finset.range k, degrees i := by
  obtain ⟨m, hm⟩ : ∃ m, m = (size + blockSize - 1) / blockSize := ⟨_, rfl⟩
  have hBulk : ∀ block ≤ m, prefixSum sums m (localSum size degrees) block =
      ∑ i ∈ Finset.range (min (block * blockSize) size), degrees i := by
    intro block hBlock
    rw [prefixSum_eq sums _ hBlock]
    exact sum_localSum degrees (hm ▸ hBlock)
  have hAll : size ≤ m * blockSize := hm ▸ size_le_blocks size
  rw [parallelPrefixSum, ← hm]
  obtain rfl | hLess := Nat.eq_or_lt_of_le hk
  · rw [Function.update_self, hBulk m le_rfl, Nat.min_eq_right hAll]
  · rw [Function.update_of_ne hLess.ne]
    refine scanBlocks_spec hm.le (fun block hBlock => ?_) k (by omega)
    rw [hBulk block hBlock.le, Nat.min_eq_left (lt_size_of_block (hm ▸ hBlock)).le]

end Trident.Gapbs
