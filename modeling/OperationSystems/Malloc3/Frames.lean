import OperationSystems.Malloc3.Merge

/-!
# What the list operations leave alone

The operations on flags and links move neither the break nor the head, and the
two counters that only an `sbrk` changes. `connect` changes the other counters
only when it takes a block out of the list.
-/

namespace OperationSystems.Malloc3

/-- The list has the same head, and the two counters of `sbrk` calls have not changed. -/
structure Quiet (a a' : AllocInfoList) : Prop where
  head : a'.head = a.head
  size : a'.size = a.size
  numMetaDataBytes : a'.numMetaDataBytes = a.numMetaDataBytes

/-- A block was taken out of the list, or the number of free ones is the same. -/
def Loses (a a' : AllocInfoList) : Prop :=
  a'.numAllocatedBlocks < a.numAllocatedBlocks ∨
    a'.numAllocatedBlocks = a.numAllocatedBlocks ∧ a'.numFreeBlocks = a.numFreeBlocks

theorem Quiet.refl (a : AllocInfoList) : Quiet a a := ⟨rfl, rfl, rfl⟩

theorem Quiet.trans {a b c : AllocInfoList} (h : Quiet a b) (h' : Quiet b c) : Quiet a c :=
  ⟨h'.head.trans h.head, h'.size.trans h.size, h'.numMetaDataBytes.trans h.numMetaDataBytes⟩

theorem Quiet.symm {a b : AllocInfoList} (h : Quiet a b) : Quiet b a :=
  ⟨h.head.symm, h.size.symm, h.numMetaDataBytes.symm⟩

theorem Loses.refl (a : AllocInfoList) : Loses a a := Or.inr ⟨rfl, rfl⟩

theorem Loses.trans {a b c : AllocInfoList} (h : Loses a b) (h' : Loses b c) : Loses a c := by
  simp only [Loses] at h h' ⊢
  omega

theorem bump_eq_iff {c c' : ℕ} {k : ℤ} (h : bump c k = .ok c') : (c' : ℤ) = c + k := by
  unfold bump at h
  split_ifs at h with hk
  cases h
  exact Int.toNat_of_nonneg hk.1

namespace DataSegment
variable {d : DataSegment} {h h' : Heap} {p q : ℕ}

theorem node_eq_ok {n : AllocInfoNode} (he : d.node p h = .ok n) : n = readNode h.mem p := by
  unfold node at he
  split_ifs at he
  cases he
  rfl

theorem write_frame {put : ByteMemory.Memory → ByteMemory.Memory} (he : d.write p put h = .ok h') :
    h'.list = h.list := by
  unfold write at he
  split_ifs at he
  cases he
  rfl

theorem setFree_frame (he : d.setFree p h = .ok h') : Quiet h.list h'.list ∧
    ((readNode h.mem p).isFreed = true ∧ h' = h ∨
      (readNode h.mem p).isFreed = false ∧
        h'.list.numAllocatedBlocks = h.list.numAllocatedBlocks ∧
        h'.list.numFreeBlocks = h.list.numFreeBlocks + 1) := by
  obtain ⟨n, hn, he⟩ := bind_eq_ok.mp he
  obtain rfl := node_eq_ok hn
  by_cases hf : (readNode h.mem p).isFreed = true
  · rw [if_pos hf] at he
    cases he
    exact ⟨.refl _, Or.inl ⟨hf, rfl⟩⟩
  · rw [if_neg hf] at he
    obtain ⟨h₁, hw, he⟩ := bind_eq_ok.mp he
    obtain ⟨blocks, hb, he⟩ := bind_eq_ok.mp he
    obtain ⟨bytes, -, he⟩ := bind_eq_ok.mp he
    have hl := write_frame hw
    have hb := bump_eq_iff hb
    cases he
    refine ⟨⟨by simp only [hl], by simp only [hl], by simp only [hl]⟩, Or.inr ⟨Bool.eq_false_of_not_eq_true hf, by simp only [hl], ?_⟩⟩
    rw [hl] at hb
    simp only
    omega

theorem setUsed_frame (he : d.setUsed p h = .ok h') : Quiet h.list h'.list := by
  obtain ⟨n, -, he⟩ := bind_eq_ok.mp he
  split at he
  · obtain ⟨h₁, hw, he⟩ := bind_eq_ok.mp he
    obtain ⟨blocks, -, he⟩ := bind_eq_ok.mp he
    obtain ⟨bytes, -, he⟩ := bind_eq_ok.mp he
    have hl := write_frame hw
    cases he
    exact ⟨by simp only [hl], by simp only [hl], by simp only [hl]⟩
  · cases he
    exact .refl _

theorem connect_frame (he : d.connect p q h = .ok h') : Quiet h.list h'.list ∧ Loses h.list h'.list := by
  unfold connect at he
  split at he
  · cases he
    exact ⟨.refl _, .refl _⟩
  · obtain ⟨n₁, -, he⟩ := bind_eq_ok.mp he
    obtain ⟨n₂, -, he⟩ := bind_eq_ok.mp he
    obtain ⟨h₁, hw₁, he⟩ := bind_eq_ok.mp he
    obtain ⟨h₂, hw₂, he⟩ := bind_eq_ok.mp he
    obtain ⟨n₂, -, he⟩ := bind_eq_ok.mp he
    obtain ⟨h₃, hw₃, he⟩ := bind_eq_ok.mp he
    have hl : h₃.list = h.list :=
      (write_frame hw₃).trans ((write_frame hw₂).trans (write_frame hw₁))
    obtain ⟨n₁, -, he⟩ := bind_eq_ok.mp he
    obtain ⟨n₂, -, he⟩ := bind_eq_ok.mp he
    simp only at he
    split at he
    · obtain ⟨freeBlocks, -, he⟩ := bind_eq_ok.mp he
      obtain ⟨blocks, hb, he⟩ := bind_eq_ok.mp he
      obtain ⟨bytes, -, he⟩ := bind_eq_ok.mp he
      obtain ⟨freeBytes, -, he⟩ := bind_eq_ok.mp he
      obtain ⟨metaBlocks, -, he⟩ := bind_eq_ok.mp he
      have hb := bump_eq_iff hb
      rw [hl] at hb
      cases he
      refine ⟨⟨by simp only [hl], by simp only [hl], by simp only [hl]⟩, Or.inl ?_⟩
      simp only
      omega
    · cases he
      exact ⟨hl ▸ .refl _, hl ▸ .refl _⟩

theorem checkIfFreeAndConnect_frame (he : d.checkIfFreeAndConnect p h = .ok h') :
    Quiet h.list h'.list ∧ Loses h.list h'.list := by
  have hmaybe : ∀ {b : Bool} {x y : ℕ} {h : Heap},
      (if b = true then d.connect x y h else pure h) = .ok h' → Quiet h.list h'.list ∧ Loses h.list h'.list := by
    intro b x y h he
    split at he
    · exact connect_frame he
    · cases he
      exact ⟨.refl _, .refl _⟩
  obtain ⟨n, -, he⟩ := bind_eq_ok.mp he
  simp only at he
  split at he
  · obtain ⟨b, -, he⟩ := bind_eq_ok.mp he
    exact hmaybe he
  · obtain ⟨b, -, he⟩ := bind_eq_ok.mp he
    split at he
    · obtain ⟨h₁, hc, he⟩ := bind_eq_ok.mp he
      obtain ⟨b, -, he⟩ := bind_eq_ok.mp he
      obtain ⟨hq₁, hl₁⟩ := connect_frame hc
      obtain ⟨hq₂, hl₂⟩ := hmaybe he
      exact ⟨hq₁.trans hq₂, hl₁.trans hl₂⟩
    · obtain ⟨b, -, he⟩ := bind_eq_ok.mp he
      split at he
      · exact connect_frame he
      · cases he
        exact ⟨.refl _, .refl _⟩

theorem split_frame {req : ℕ} (he : d.split p req h = .ok h') : Quiet h.list h'.list := by
  have hrest : ∀ {h : Heap}, (do
      let n1 ← d.node p h
      let temp := n1.allocationStartPtr + req
      let metaBlocks ← bump h.list.numMetaDataBlocks 1
      let blocks ← bump h.list.numAllocatedBlocks 1
      let bytes ← bump h.list.numAllocatedBytes (-headerSize)
      let h := { h with list := { h.list with
        numMetaDataBlocks := metaBlocks, numAllocatedBlocks := blocks, numAllocatedBytes := bytes } }
      let h ← d.writeStart temp (temp + headerSize) h
      let h ← d.writeSize temp (n1.sizeOfAllocation - req - headerSize) h
      let h ← d.writeFreed temp false h
      let h ← d.setFree temp h
      let h ← d.writeSize p req h
      let n1 ← d.node p h
      let h ← d.writeNext temp n1.next h
      let h ← d.writePrev temp p h
      let n1 ← d.node p h
      let h ← d.writePrev n1.next temp h
      let h ← d.writeNext p temp h
      d.checkIfFreeAndConnect temp h) = .ok h' → Quiet h.list h'.list := by
    intro h he
    obtain ⟨n₁, -, he⟩ := bind_eq_ok.mp he
    obtain ⟨metaBlocks, -, he⟩ := bind_eq_ok.mp he
    obtain ⟨blocks, -, he⟩ := bind_eq_ok.mp he
    obtain ⟨bytes, -, he⟩ := bind_eq_ok.mp he
    obtain ⟨h₁, hw₁, he⟩ := bind_eq_ok.mp he
    obtain ⟨h₂, hw₂, he⟩ := bind_eq_ok.mp he
    obtain ⟨h₃, hw₃, he⟩ := bind_eq_ok.mp he
    obtain ⟨h₄, hs, he⟩ := bind_eq_ok.mp he
    obtain ⟨h₅, hw₅, he⟩ := bind_eq_ok.mp he
    obtain ⟨n₁, -, he⟩ := bind_eq_ok.mp he
    obtain ⟨h₆, hw₆, he⟩ := bind_eq_ok.mp he
    obtain ⟨h₇, hw₇, he⟩ := bind_eq_ok.mp he
    obtain ⟨n₁, -, he⟩ := bind_eq_ok.mp he
    obtain ⟨h₈, hw₈, he⟩ := bind_eq_ok.mp he
    obtain ⟨h₉, hw₉, he⟩ := bind_eq_ok.mp he
    have hl₃ := (write_frame hw₃).trans ((write_frame hw₂).trans (write_frame hw₁))
    have hl₉ := (write_frame hw₉).trans ((write_frame hw₈).trans ((write_frame hw₇).trans
      ((write_frame hw₆).trans (write_frame hw₅))))
    have hq₃ : Quiet h.list h₃.list := hl₃ ▸ ⟨rfl, rfl, rfl⟩
    have hq₄ := hq₃.trans (setFree_frame hs).1
    exact hq₄.trans (hl₉ ▸ (checkIfFreeAndConnect_frame he).1)
  obtain ⟨n, -, he⟩ := bind_eq_ok.mp he
  dsimp only at he
  split at he
  · obtain ⟨h₀, hu, he⟩ := bind_eq_ok.mp he
    exact (setUsed_frame hu).trans (hrest he)
  · exact hrest he

theorem findLoop_frame {req fuel : ℕ} {r : Option ℕ} (he : d.findLoop req fuel p h = .ok (r, h')) :
    Quiet h.list h'.list := by
  induction fuel generalizing p with
  | zero => cases he
  | succ fuel ih =>
    obtain ⟨n, -, he⟩ := bind_eq_ok.mp he
    split at he
    · split at he
      · obtain ⟨h₁, hu, he⟩ := bind_eq_ok.mp he
        obtain ⟨n₁, -, he⟩ := bind_eq_ok.mp he
        cases he
        exact setUsed_frame hu
      · obtain ⟨h₁, hs, he⟩ := bind_eq_ok.mp he
        obtain ⟨n₁, -, he⟩ := bind_eq_ok.mp he
        cases he
        exact split_frame hs
    · split at he
      · exact ih he
      · cases he
        exact .refl _

theorem sbrk_frame {inc : ℤ} : (d.sbrk inc h).2.list = h.list := by
  unfold sbrk
  split_ifs <;> rfl

theorem wilderness_frame {req : ℕ} (he : d.wilderness req h = .ok (p, h')) :
    Quiet h.list h'.list := by
  obtain ⟨n₀, -, he⟩ := bind_eq_ok.mp he
  obtain ⟨n, -, he⟩ := bind_eq_ok.mp he
  split at he
  · cases he
    exact .refl _
  · dsimp only at he
    obtain ⟨v, -, he⟩ := bind_eq_ok.mp he
    split at he
    · cases he
      exact sbrk_frame ▸ .refl _
    · obtain ⟨h₁, hu, he⟩ := bind_eq_ok.mp he
      obtain ⟨n₁, -, he⟩ := bind_eq_ok.mp he
      obtain ⟨h₂, hw, he⟩ := bind_eq_ok.mp he
      obtain ⟨bytes, -, he⟩ := bind_eq_ok.mp he
      obtain ⟨n₂, -, he⟩ := bind_eq_ok.mp he
      have hq₁ := setUsed_frame hu
      rw [sbrk_frame] at hq₁
      have hl := write_frame hw
      cases he
      exact hq₁.trans ⟨by simp only [hl], by simp only [hl], by simp only [hl]⟩

theorem findFree_frame {req : ℕ} (he : d.findFreeAllocationAddress req h = .ok (p, h')) :
    Quiet h.list h'.list := by
  obtain ⟨⟨found, h₁⟩, hf, he⟩ := bind_eq_ok.mp he
  have hq := findLoop_frame hf
  cases found with
  | some q =>
    cases he
    exact hq
  | none =>
    obtain ⟨n, -, he⟩ := bind_eq_ok.mp he
    obtain ⟨b, -, he⟩ := bind_eq_ok.mp he
    split at he
    · exact hq.trans (wilderness_frame he)
    · cases he
      exact hq

theorem free_frame (he : d.free p h = .ok h') : Quiet h.list h'.list := by
  unfold free at he
  split at he
  · cases he
    exact .refl _
  · obtain ⟨n, -, he⟩ := bind_eq_ok.mp he
    split at he
    · cases he
      exact .refl _
    · obtain ⟨h₁, hs, he⟩ := bind_eq_ok.mp he
      exact (setFree_frame hs).1.trans (checkIfFreeAndConnect_frame he).1

/-- A block whose flag is down is never freed without a trace in the counters. -/
theorem free_counts (hp : p ≠ 0) (hf : (readNode h.mem (p - headerSize)).isFreed = false)
    (he : d.free p h = .ok h') : h'.list ≠ h.list := by
  unfold free at he
  rw [if_neg hp] at he
  obtain ⟨n, hn, he⟩ := bind_eq_ok.mp he
  obtain rfl := node_eq_ok hn
  rw [hf, if_neg (by simp)] at he
  obtain ⟨h₁, hs, he⟩ := bind_eq_ok.mp he
  obtain ⟨-, hs⟩ := setFree_frame hs
  obtain ⟨-, hb, hfree⟩ := hs.resolve_left fun h => by simp [hf] at h
  have hl := (checkIfFreeAndConnect_frame he).2
  intro heq
  rw [heq, Loses] at hl
  omega

end DataSegment

end OperationSystems.Malloc3
