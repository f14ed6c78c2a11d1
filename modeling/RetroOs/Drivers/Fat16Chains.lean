import RetroOs.Drivers.Fat16Tree

/-! Writing to a file: its chain may grow, and the chains of the other entries and the directories stay. -/
namespace RetroOs.Drivers
open Lib Relation Function
namespace Fat16

variable {b : Bpb} {d d' : Disk} {a c e dir i w : Nat} {k l xs ys : List Nat} {ch : Nat → List Nat} {live : Nat → Prop}
  {head : Nat → Nat} {data : List UInt8}

structure Apart (b : Bpb) (d d' : Disk) (k : List Nat) : Prop where
  outside : ∀ c < 256 * b.sectorsPerFat, ¬ InVolume b c → getFatEntry b d' c = getFatEntry b d c
  beside : ∀ dir l, Directory b d dir l → (∀ c ∈ k, c ∉ l) → Beside b d d' dir l

theorem Apart.refl : Apart b d d k := ⟨fun _ _ _ => rfl, fun _ _ _ _ => .refl⟩

theorem Apart.trans {d₁ : Disk} (h : Apart b d d₁ k)
    (h' : ∀ dir l, Directory b d₁ dir l → (∀ c ∈ k, c ∉ l) → Beside b d₁ d' dir l)
    (hout : ∀ c < 256 * b.sectorsPerFat, ¬ InVolume b c → getFatEntry b d' c = getFatEntry b d₁ c) : Apart b d d' k where
  outside c hc hv := (hout c hc hv).trans (h.outside c hc hv)
  beside dir l hdir hk := (h.beside dir l hdir hk).trans (h' dir l (hdir.beside (h.beside dir l hdir hk)) hk)

private theorem writeSectors_apart (hg : Geometry b) (hc : InVolume b c) (hck : c ∈ k) (d : Disk) (data : List UInt8) (w : Nat) :
    Apart b d (writeSectors d data b.sectorsPerCluster (b.clusterToSector c) w).1 k ∧
      ∀ e < 256 * b.sectorsPerFat,
        getFatEntry b (writeSectors d data b.sectorsPerCluster (b.clusterToSector c) w).1 e = getFatEntry b d e := by
  have hroot := hg.rootDirStart_ge
  have hdata := dataStart_ge_root b
  have hfat : ∀ e < 256 * b.sectorsPerFat,
      getFatEntry b (writeSectors d data b.sectorsPerCluster (b.clusterToSector c) w).1 e = getFatEntry b d e := by
    intro e he
    apply writeSectors_invariant (i := 0) (fun t => getFatEntry b t e = getFatEntry b d e) rfl
    intro t ht j _ hj buffer
    have hge := (hc.sector (i := j) (by omega)).1
    rw [writeSector_fat (by omega) he]
    exact ht
  refine ⟨⟨fun e he _ => hfat e he, fun dir l hdir hk => ?_⟩, hfat⟩
  apply writeSectors_invariant (i := 0) (fun t => Beside b d t dir l) .refl
  intro t ht j _ hj buffer
  exact ht.trans ((hdir.beside ht).data_beside hg hc (hk c hck) (by omega) buffer)

theorem allocCluster_apart (hg : Geometry b) (hscan : ScanInside b d.bytes) (k : List Nat) :
    Apart b d (allocCluster b d).1 k ∧
      ((allocCluster b d).2 = 0 ∧ (allocCluster b d).1.bytes = d.bytes ∧ (∀ c, ¬ ReadsFree b d.bytes c) ∨
        InVolume b (allocCluster b d).2 ∧ (allocCluster b d).2 < chainEnd ∧ getFatEntry b d (allocCluster b d).2 = 0 ∧
          (allocCluster b d).1.bytes = (setFatEntry b d (allocCluster b d).2 0xFFFF).bytes) := by
  refine ⟨⟨fun c hc hv => ?_, fun dir l hdir _ => (hdir.alloc_beside hg hscan).1⟩, ?_⟩
  · rcases allocCluster_cases b d with ⟨he, -⟩ | ⟨x, hfree, hfirst, he⟩
    · rw [he]
      rfl
    · rw [he]
      have hx := hscan.first hfree hfirst
      exact getFatEntry_setFatEntry_other hc fun heq => hv (heq ▸ hx)
  · rcases allocCluster_cases b d with ⟨he, hnone⟩ | ⟨x, hfree, hfirst, he⟩
    · rw [he]
      exact .inl ⟨rfl, rfl, hnone⟩
    · rw [he]
      refine .inr ⟨hscan.first hfree hfirst, hfree.2.1, ?_, ?_⟩
      · rw [getFatEntry_eq, hfree.2.2]
      · simp only [setFatEntry]
        split <;> rfl

/-- The new cluster behind the last one of the owner `i`. -/
theorem FatOwned.link (h : FatOwned b d live head ch) (hi : live i) (hch : ch i = xs ++ [c]) (hv : InVolume b e)
    (hlt : e < chainEnd) (hfree : getFatEntry b d e = 0)
    (hbytes : d'.bytes = (setFatEntry b d e 0xFFFF).bytes) :
    FatOwned b (setFatEntry b d' c e) live head (update ch i (xs ++ [c, e])) := by
  have hc : c ∈ ch i := by rw [hch]; exact List.mem_append_right _ (List.mem_singleton_self c)
  have hcv := h.cells i hi c hc
  have hne : c ≠ e := by
    rintro rfl
    exact h.not_mem hfree hi hc
  have hd' : ∀ x, getFatEntry b d' x = getFatEntry b (setFatEntry b d e 0xFFFF) x := by
    intro x
    rw [getFatEntry_eq, getFatEntry_eq, hbytes]
  apply h.extend hi hch hv hfree (not_not.mpr ⟨hv.two_le, hlt⟩)
  · intro x hx hxe hxc
    rw [getFatEntry_setFatEntry_other hx.fat hxc, hd', getFatEntry_setFatEntry_other hx.fat hxe]
  · exact getFatEntry_setFatEntry (Nat.lt_trans hlt (by decide)) hcv.fat
  · rw [getFatEntry_setFatEntry_other hv.fat hne.symm, hd', getFatEntry_setFatEntry (by decide) hv.fat]
    show chainEnd ≤ 0xFFFF
    decide

theorem Apart.link (hg : Geometry b) {d₁ : Disk} {k' : List Nat} (h : Apart b d d₁ k) (hck : c ∈ k) (hv : InVolume b c)
    (hfree : getFatEntry b d e = 0) (h' : Apart b (setFatEntry b d₁ c e) d' k') (hk' : ∀ x ∈ k', x ∈ k ∨ x = e) :
    Apart b d d' k := by
  have hlink : Apart b d (setFatEntry b d₁ c e) k := by
    apply h.trans (fun dir l hdir hk => hdir.fat_beside hg hv (hk c hck) e)
    exact fun x hx hxv => getFatEntry_setFatEntry_other hx fun heq => hxv (heq ▸ hv)
  refine ⟨fun x hx hxv => (h'.outside x hx hxv).trans (hlink.outside x hx hxv), fun dir l hdir hk => ?_⟩
  have hb := hlink.beside dir l hdir hk
  apply hb.trans (h'.beside dir l (hdir.beside hb) ?_)
  intro x hx hxl
  rcases hk' x hx with hxk | rfl
  · exact hk x hxk hxl
  · exact hdir.used x hxl hfree

theorem writeClusters_owned (hg : Geometry b) (fuel w : Nat) (h : FatOwned b d live head ch) (hi : live i)
    (hch : ch i = xs ++ c :: ys) (hscan : ScansInside b (writeClusters b d data fuel c w).1) :
    (∃ ch', FatOwned b (writeClusters b d data fuel c w).1 live head ch') ∧
      Apart b d (writeClusters b d data fuel c w).1 (ch i) := by
  induction fuel generalizing d c w xs ys ch with
  | zero => exact ⟨⟨ch, h⟩, .refl⟩
  | succ fuel ih =>
    have hc : c ∈ ch i := by rw [hch]; exact List.mem_append_right _ (.head _)
    have hv : InVolume b c := h.cells i hi c hc
    rw [writeClusters] at hscan ⊢
    split at hscan
    · next hgo =>
      rw [if_pos hgo]
      obtain ⟨hap, hfat⟩ := writeSectors_apart hg hv hc d data w
      generalize writeSectors d data b.sectorsPerCluster (b.clusterToSector c) w = p at hap hfat hscan ⊢
      have hp : FatOwned b p.1 live head ch := h.congr (fun e he => hfat e he.fat) (fun _ => Iff.rfl) fun _ _ => rfl
      have hchain := hp.chain i hi
      rw [hch] at hchain
      dsimp only at hscan ⊢
      split at hscan
      · next hmore =>
        rw [if_pos hmore]
        cases ys with
        | cons y ys =>
          obtain ⟨hnext, hgo'⟩ := hchain.next_eq
          have hgo' : 2 ≤ y ∧ y < chainEnd := not_not.mp hgo'
          have hno : ¬ (getFatEntry b p.1 c ≥ chainEnd ∨ getFatEntry b p.1 c = 0) := by omega
          rw [if_neg hno] at hscan ⊢
          rw [hnext] at hscan ⊢
          have hch' : ch i = (xs ++ [c]) ++ y :: ys := by rw [hch, List.append_assoc]; rfl
          obtain ⟨howned, hap'⟩ := ih p.2 hp hch' hscan
          exact ⟨howned, hap.trans hap'.beside hap'.outside⟩
        | nil =>
          have hend : chainEnd ≤ getFatEntry b p.1 c := hchain.last
          rw [if_pos (.inl hend)] at hscan ⊢
          split at hscan
          · next hfull =>
            rw [if_pos hfull]
            obtain ⟨hap', hres⟩ := allocCluster_apart hg hscan.alloc (ch i)
            refine ⟨⟨ch, ?_⟩, hap.trans hap'.beside hap'.outside⟩
            obtain ⟨-, hbytes, -⟩ := hres.resolve_right fun hin => absurd hfull (by have := hin.1.two_le; omega)
            apply hp.congr (fun e _ => ?_) (fun _ => Iff.rfl) fun _ _ => rfl
            rw [getFatEntry_eq, getFatEntry_eq, hbytes]
          · next hnew =>
            rw [if_neg hnew]
            have hscan' := hscan.mono (writeClusters_allocs ..)
            rw [ScansInside, setFatEntry_allocs] at hscan'
            obtain ⟨hap', hres⟩ := allocCluster_apart hg (ScansInside.alloc hscan') (ch i)
            obtain ⟨hcv, hlt, hfree, hbytes⟩ := hres.resolve_left fun hin => hnew hin.1
            have hlink := hp.link hi hch hcv hlt hfree hbytes
            have hch' : update ch i (xs ++ [c, (allocCluster b p.1).2]) i = (xs ++ [c]) ++ (allocCluster b p.1).2 :: [] := by
              rw [update_self]
              exact (List.append_assoc xs [c] [_]).symm
            obtain ⟨howned, hap''⟩ := ih p.2 hlink hch' hscan
            have hfree' : getFatEntry b d _ = 0 := (hfat _ hcv.fat).symm.trans hfree
            refine ⟨howned, (hap.trans hap'.beside hap'.outside).link hg hc hv hfree' hap'' fun x hx => ?_⟩
            rw [hch]
            simpa [or_assoc] using hx
      · next hdone =>
        rw [if_neg hdone]
        exact ⟨⟨ch, hp⟩, hap⟩
    · next hstop =>
      rw [if_neg hstop]
      exact ⟨⟨ch, h⟩, .refl⟩

end Fat16
end RetroOs.Drivers
