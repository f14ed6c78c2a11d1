import Mathlib.Data.List.Pairwise
import RetroOs.Apps.Malloc
import RetroOs.Lib.DoublyLinked

/-! What the calls on the heap of a program do to the list of its blocks: the blocks stay in order and apart, and those
that are given out stay as they are. -/
namespace RetroOs.Apps
open Lib List Option UserHeap Memory

/-- Places where headers do not overlap. -/
def Spaced (l : List ℕ) : Prop := ∀ a ∈ l, a + 20 ≤ 2 ^ 32 ∧ ∀ b ∈ l, b = a ∨ a + 20 ≤ b ∨ b + 20 ≤ a

def header (size free next prev : ℕ) : BlockField → ℕ
  | .magic => heapMagic
  | .size => size
  | .free => free
  | .next => next
  | .prev => prev

structure Blocks (m : Memory) (l : List ℕ) (top : ℕ) : Prop where
  linked : DLinks (field m · .next) (field m · .prev) 0 l 0
  magic : ∀ a ∈ l, field m a .magic = heapMagic
  apart : l.Pairwise fun a b => a + 20 + field m a .size ≤ b
  fits : ∀ a ∈ l, 0 < a ∧ a + 20 + field m a .size ≤ top
  top_lt : top < 2 ^ 32

/-- Blocks that are given out stay where they are, with what is in them; all, or all but one. -/
def Kept (t : Option ℕ) (m : Memory) (l : List ℕ) (m' : Memory) (l' : List ℕ) : Prop :=
  ∀ a ∈ l, a ∉ t → field m a .free = 0 →
    a ∈ l' ∧ field m' a .free = 0 ∧ field m' a .size = field m a .size ∧ m.AgreeOn m' (a + 20) (field m a .size)

variable {m m' m'' : Memory} {l l' l'' xs ys : List ℕ} {a b c n k v top top' size : ℕ} {t : Option ℕ} {f g : BlockField}

theorem wrap_of_lt (h : n < 2 ^ 32) : wrap n = n := Nat.mod_eq_of_lt h

theorem offset_le (f : BlockField) : f.offset + 4 ≤ 20 := by cases f <;> decide

private theorem offset_apart (h : f ≠ g) : f.offset + 4 ≤ g.offset ∨ g.offset + 4 ≤ f.offset := by
  cases f <;> cases g <;> first | exact absurd rfl h | decide

theorem field_lt (m : Memory) (a : ℕ) (f : BlockField) : field m a f < 2 ^ 32 := load32_lt m _

theorem field_eq (h : a + 20 ≤ 2 ^ 32) : field m a f = m.load32 (a + f.offset) := by
  have := offset_le f
  rw [field, wrap_of_lt (by omega)]

private theorem setField_eq (h : a + 20 ≤ 2 ^ 32) : setField m a f v = m.store32 (a + f.offset) v := by
  have := offset_le f
  rw [setField, wrap_of_lt (by omega)]

theorem Spaced.field_set (h : Spaced l) (ha : a ∈ l) (hb : b ∈ l) (hv : v < 2 ^ 32) :
    field (setField m a f v) b g = if b = a ∧ g = f then v else field m b g := by
  obtain ⟨hale, hspaced⟩ := h a ha
  have hble := (h b hb).1
  have hf := offset_le f
  have hg := offset_le g
  rw [field_eq hble, field_eq hble, setField_eq hale]
  rcases hspaced b hb with rfl | hapart
  · by_cases hgf : g = f
    · rw [if_pos ⟨rfl, hgf⟩, hgf, load32_store32 m _ hv]
    · rw [if_neg fun h => hgf h.2]
      have hoff := offset_apart hgf
      exact load32_store32_other m v (by omega)
  · have hne : b ≠ a := by omega
    rw [if_neg fun h => hne h.1]
    exact load32_store32_other m v (by omega)

theorem Spaced.insert (h : Spaced l) (hn : n + 20 ≤ 2 ^ 32) (hapart : ∀ c ∈ l, c + 20 ≤ n ∨ n + 20 ≤ c)
    (hmem : ∀ c ∈ l', c = n ∨ c ∈ l) : Spaced l' := by
  intro c hc
  rcases hmem c hc with rfl | hcl
  · refine ⟨hn, fun d hd => ?_⟩
    rcases hmem d hd with rfl | hdl
    · exact .inl rfl
    · exact .inr (hapart d hdl).symm
  · refine ⟨(h c hcl).1, fun d hd => ?_⟩
    rcases hmem d hd with rfl | hdl
    · exact .inr (hapart c hcl)
    · exact (h c hcl).2 d hdl

private theorem setField_agreeOn (h : a + 20 ≤ 2 ^ 32) (hapart : a + 20 ≤ b ∨ b + n ≤ a) : m.AgreeOn (setField m a f v) b n := by
  have := offset_le f
  rw [setField_eq h]
  exact store32_agreeOn m v (by omega)

theorem newBlock_field (h : Spaced l) (hn : n ∈ l) (hb : b ∈ l) {s nx p : ℕ} (hnx : nx < 2 ^ 32) (hp : p < 2 ^ 32) :
    field (newBlock m n s nx p) b f = if b = n then header (wrap s) 1 nx p f else field m b f := by
  have hs : wrap s < 2 ^ 32 := Nat.mod_lt _ (by decide)
  simp only [newBlock, h.field_set hn hb hp, h.field_set hn hb hnx, h.field_set hn hb hs, h.field_set hn hb (show 1 < 2 ^ 32 by decide),
    h.field_set hn hb (show heapMagic < 2 ^ 32 by decide)]
  by_cases hbn : b = n
  · cases f <;> simp [hbn, header]
  · simp [hbn]

private theorem newBlock_agreeOn {s nx p k : ℕ} (h : n + 20 ≤ 2 ^ 32) (hapart : n + 20 ≤ b ∨ b + k ≤ n) :
    m.AgreeOn (newBlock m n s nx p) b k := by
  have hset : ∀ (m : Memory) f v, m.AgreeOn (setField m n f v) b k := fun m f v => setField_agreeOn h hapart
  exact ((((hset _ _ _).trans (hset _ _ _)).trans (hset _ _ _)).trans (hset _ _ _)).trans (hset _ _ _)

namespace Kept

theorem refl : Kept t m l m l := fun _ ha _ hf => ⟨ha, hf, rfl, .refl⟩

theorem trans (h : Kept t m l m' l') (h' : Kept t m' l' m'' l'') : Kept t m l m'' l'' := by
  intro a ha hat hf
  obtain ⟨ha', hf', hs', hagree⟩ := h a ha hat hf
  obtain ⟨ha'', hf'', hs'', hagree'⟩ := h' a ha' hat hf'
  rw [hs'] at hagree'
  exact ⟨ha'', hf'', hs''.trans hs', hagree.trans hagree'⟩

theorem but (h : Kept none m l m' l') : Kept t m l m' l' := fun a ha _ hf => h a ha (not_mem_none a) hf

private theorem trans_but (h : Kept none m l m' l') (h' : Kept (some a) m' l' m'' l'') (hfree : field m a .free ≠ 0) :
    Kept none m l m'' l'' := by
  intro c hc _ hf
  have hca : c ≠ a := by
    rintro rfl
    exact hfree hf
  exact (h.but.trans h') c hc (fun hsome => hca (some.inj hsome).symm) hf

end Kept

namespace Blocks

theorem nodup (h : Blocks m l top) : l.Nodup := h.apart.imp fun hab => by omega

theorem apart_of (h : Blocks m l top) (ha : a ∈ l) (hb : b ∈ l) (hne : a ≠ b) :
    a + 20 + field m a .size ≤ b ∨ b + 20 + field m b .size ≤ a := by
  have hsym : Std.Symm fun a b => a + 20 + field m a .size ≤ b ∨ b + 20 + field m b .size ≤ a := ⟨fun _ _ => Or.symm⟩
  have hpair : l.Pairwise fun a b => a + 20 + field m a .size ≤ b ∨ b + 20 + field m b .size ≤ a := h.apart.imp .inl
  exact hpair.forall ha hb hne

theorem spaced (h : Blocks m l top) : Spaced l := by
  intro a ha
  have htop := h.top_lt
  have hfits := (h.fits a ha).2
  refine ⟨by omega, fun b hb => ?_⟩
  by_cases hba : b = a
  · exact .inl hba
  · have hapart := h.apart_of hb ha hba
    omega

theorem congr (h : Blocks m l top) (hsame : ∀ a ∈ l, ∀ f, f ≠ .free → field m' a f = field m a f) : Blocks m' l top where
  linked := h.linked.congr (fun a ha => hsame a ha _ (by decide)) fun a ha => hsame a ha _ (by decide)
  magic a ha := (hsame a ha _ (by decide)).trans (h.magic a ha)
  apart := h.apart.imp_of_mem fun ha _ hab => by rwa [hsame _ ha _ (by decide)]
  fits a ha := by
    rw [hsame a ha _ (by decide)]
    exact h.fits a ha
  top_lt := h.top_lt

theorem setFree (h : Blocks m l top) (ha : a ∈ l) (hv : v < 2 ^ 32) : Blocks (setField m a .free v) l top :=
  h.congr fun _ hb _ hf => (h.spaced.field_set ha hb hv).trans (if_neg fun hbf => hf hbf.2)

theorem set_agreeOn (h : Blocks m l top) (ha : a ∈ l) (hc : c ∈ l) (k : Memory) :
    k.AgreeOn (setField k a f v) (c + 20) (field m c .size) := by
  refine setField_agreeOn (h.spaced a ha).1 ?_
  by_cases hac : a = c
  · exact .inl (by omega)
  · have hapart := h.apart_of ha hc hac
    omega

theorem setFree_kept (h : Blocks m l top) (ha : a ∈ l) (hv : v < 2 ^ 32) : Kept (some a) m l (setField m a .free v) l := by
  intro c hc hca hf
  have hne : c ≠ a := fun heq => hca (congrArg some heq.symm)
  refine ⟨hc, ?_, ?_, h.set_agreeOn ha hc m⟩
  · rw [h.spaced.field_set ha hc hv, if_neg fun heq => hne heq.1, hf]
  · rw [h.spaced.field_set ha hc hv, if_neg fun heq => hne heq.1]

theorem setFree_free (h : Blocks m l top) (ha : a ∈ l) (hv : v < 2 ^ 32) : field (setField m a .free v) a .free = v := by
  rw [h.spaced.field_set ha ha hv, if_pos ⟨rfl, rfl⟩]

theorem next_eq (h : Blocks m (xs ++ a :: ys) top) : field m a .next = ys.head?.getD 0 := h.linked.next_eq

theorem prev_eq (h : Blocks m (xs ++ a :: ys) top) : field m a .prev = xs.getLast?.getD 0 := h.linked.prev_eq

theorem absorb_field (h : Blocks m (xs ++ a :: b :: ys) top) (hc : c ∈ xs ++ a :: b :: ys) :
    field (absorb m a b) c f =
      if c = a ∧ f = .size then field m a .size + 20 + field m b .size
      else if c = a ∧ f = .next then field m b .next
      else if ys.head? = some c ∧ f = .prev then a
      else field m c f := by
  have hs := h.spaced
  have ha : a ∈ xs ++ a :: b :: ys := by simp
  have hb : b ∈ xs ++ a :: b :: ys := by simp
  have hab : a + 20 + field m a .size ≤ b := by
    have hpair := (pairwise_append.mp h.apart).2.1
    exact (pairwise_cons.mp hpair).1 b (.head _)
  have hne : b ≠ a := by omega
  have hfits := (h.fits b hb).2
  have htop := h.top_lt
  have hsum : wrap (field m a .size + headerSize + field m b .size) = field m a .size + 20 + field m b .size :=
    wrap_of_lt (by rw [headerSize]; omega)
  have hsumlt : field m a .size + 20 + field m b .size < 2 ^ 32 := by omega
  have hnext : field m b .next = ys.head?.getD 0 := by
    rw [show xs ++ a :: b :: ys = (xs ++ [a]) ++ b :: ys by simp] at h
    exact h.next_eq
  have halt : a < 2 ^ 32 := by omega
  simp only [absorb, hsum, hs.field_set ha hb hsumlt, hne, false_and, if_false, hs.field_set ha ha (field_lt m b .next), and_self,
    if_true]
  cases ys with
  | nil =>
    rw [hnext]
    simp only [head?_nil, getD_none, ne_eq, not_true, if_false, reduceCtorEq, false_and]
    rw [hs.field_set ha hc (by decide), hs.field_set ha hc hsumlt]
    cases f <;> simp
  | cons y ys =>
    have hy : y ∈ xs ++ a :: b :: y :: ys := by simp
    have hy0 : y ≠ 0 := (h.fits y hy).1.ne'
    have hylt : y < 2 ^ 32 := by
      have := (hs y hy).1
      omega
    rw [hnext]
    simp only [head?_cons, getD_some, ne_eq, hy0, not_false_eq_true, if_true, some.injEq]
    rw [hs.field_set hy hc halt, hs.field_set ha hc hylt, hs.field_set ha hc hsumlt]
    cases f <;> simp [eq_comm]

theorem absorb (h : Blocks m (xs ++ a :: b :: ys) top) : Blocks (absorb m a b) (xs ++ a :: ys) top := by
  have hd := h.nodup
  have hin : ∀ c ∈ xs ++ a :: ys, c ∈ xs ++ a :: b :: ys := by
    intro c hc
    simp only [mem_append, mem_cons] at hc ⊢
    tauto
  have hsize : ∀ c ∈ xs ++ a :: ys, field (UserHeap.absorb m a b) c .size =
      if c = a then field m a .size + 20 + field m b .size else field m c .size := by
    intro c hc
    rw [h.absorb_field (hin c hc)]
    simp
  obtain ⟨hpx, hpa, hpxa⟩ := pairwise_append.mp h.apart
  obtain ⟨hab, hpb⟩ := pairwise_cons.mp hpa
  obtain ⟨hby, hpy⟩ := pairwise_cons.mp hpb
  have hab' := hab b (.head _)
  obtain ⟨-, hda, hdx⟩ := nodup_append.mp hd
  have hne : ∀ c ∈ xs ++ ys, c ≠ a := by
    intro c hc heq
    subst heq
    rcases mem_append.mp hc with hc | hc
    · exact hdx c hc c (.head _) rfl
    · exact (nodup_cons.mp hda).1 (mem_cons_of_mem b hc)
  refine ⟨h.linked.remove hd (fun c hc => ?_) fun c hc => ?_, fun c hc => ?_, ?_, fun c hc => ?_, h.top_lt⟩
  · rw [h.absorb_field (hin c hc)]
    simp
  · rw [h.absorb_field (hin c hc)]
    simp
  · rw [h.absorb_field (hin c hc)]
    simpa using h.magic c (hin c hc)
  · refine pairwise_append.mpr ⟨?_, pairwise_cons.mpr ⟨fun y hy => ?_, ?_⟩, fun x hx y hy => ?_⟩
    · exact hpx.imp_of_mem fun hx _ hxy => by
        rwa [hsize _ (mem_append_left _ hx), if_neg (hne _ (mem_append_left _ hx))]
    · rw [hsize a (by simp), if_pos rfl]
      have := hby y hy
      omega
    · exact hpy.imp_of_mem fun hx _ hxy => by
        rwa [hsize _ (by simp [hx]), if_neg (hne _ (mem_append_right _ hx))]
    · rw [hsize x (mem_append_left _ hx), if_neg (hne x (mem_append_left _ hx))]
      refine hpxa x hx y ?_
      rcases mem_cons.mp hy with rfl | hy
      · exact .head _
      · exact .tail _ (.tail _ hy)
  · have hfits := h.fits c (hin c hc)
    rw [hsize c hc]
    split
    · next heq =>
      have := (h.fits b (by simp)).2
      exact ⟨hfits.1, by omega⟩
    · exact hfits

private theorem absorb_kept (h : Blocks m (xs ++ a :: b :: ys) top) (hfa : field m a .free ≠ 0) (hfb : field m b .free ≠ 0) :
    Kept none m (xs ++ a :: b :: ys) (UserHeap.absorb m a b) (xs ++ a :: ys) := by
  intro c hc _ hf
  have hca : c ≠ a := by
    rintro rfl
    exact hfa hf
  have hcb : c ≠ b := by
    rintro rfl
    exact hfb hf
  refine ⟨?_, ?_, ?_, ?_⟩
  · simp only [mem_append, mem_cons] at hc ⊢
    tauto
  · rw [h.absorb_field hc]
    simpa [hca] using hf
  · rw [h.absorb_field hc]
    simp [hca]
  · have ha : a ∈ xs ++ a :: b :: ys := by simp
    have hset : ∀ {y f v} (k : Memory), y ∈ xs ++ a :: b :: ys → k.AgreeOn (setField k y f v) (c + 20) (field m c .size) :=
      fun k hy => h.set_agreeOn hy hc k
    have hfirst := (hset (v := wrap (field m a .size + headerSize + field m b .size)) (f := .size) m ha).trans
      (hset (v := field (setField m a .size (wrap (field m a .size + headerSize + field m b .size))) b .next) (f := .next) _ ha)
    rw [UserHeap.absorb]
    split
    · next hnext =>
      refine hfirst.trans (hset _ ?_)
      have hb : b ∈ xs ++ a :: b :: ys := by simp
      have hne : b ≠ a := by
        rintro rfl
        have hd := (nodup_append.mp h.nodup).2.1
        exact (nodup_cons.mp hd).1 (.head _)
      have hsum : wrap (field m a .size + headerSize + field m b .size) < 2 ^ 32 := Nat.mod_lt _ (by decide)
      rw [h.spaced.field_set ha ha (field_lt _ _ _), if_pos ⟨rfl, rfl⟩, h.spaced.field_set ha hb hsum, if_neg fun heq => hne heq.1] at hnext ⊢
      have hbnext : field m b .next = ys.head?.getD 0 := by
        rw [show xs ++ a :: b :: ys = (xs ++ [a]) ++ b :: ys by simp] at h
        exact h.next_eq
      rw [hbnext] at hnext ⊢
      cases ys with
      | nil => exact absurd rfl hnext
      | cons y ys => simp
    · exact hfirst

/-- A new free block between `a`, which may have become smaller, and the next one. -/
theorem insert (h : Blocks m (xs ++ a :: ys) top) (size n k : ℕ) (hfield : ∀ c ∈ xs ++ a :: ys, ∀ f, field m' c f =
      if c = a ∧ f = .size then size else if c = a ∧ f = .next then n else if ys.head? = some c ∧ f = .prev then n else field m c f)
    (hnew : ∀ f, field m' n f = header k 1 (field m a .next) a f) (hsize : a + 20 + size ≤ n) (hy : ∀ y ∈ ys, n + 20 + k ≤ y)
    (hn : n + 20 + k ≤ top') (htop : top ≤ top') (hlt : top' < 2 ^ 32) (hle : size ≤ field m a .size) :
    Blocks m' (xs ++ a :: n :: ys) top' := by
  have hd := h.nodup
  have hsizes : ∀ c ∈ xs ++ a :: ys, field m' c .size = if c = a then size else field m c .size := by
    intro c hc
    rw [hfield c hc]
    simp
  obtain ⟨hpx, hpa, hpxa⟩ := pairwise_append.mp h.apart
  obtain ⟨hay, hpy⟩ := pairwise_cons.mp hpa
  obtain ⟨-, hda, hdx⟩ := nodup_append.mp hd
  have hne : ∀ c ∈ xs ++ ys, c ≠ a := by
    intro c hc heq
    subst heq
    rcases mem_append.mp hc with hc | hc
    · exact hdx c hc c (.head _) rfl
    · exact (nodup_cons.mp hda).1 hc
  have hold : ∀ c ∈ xs ++ a :: n :: ys, c = n ∨ c ∈ xs ++ a :: ys := by
    intro c hc
    simp only [mem_append, mem_cons] at hc ⊢
    tauto
  refine ⟨h.linked.insert hd (fun c hc => ?_) (fun c hc => ?_) (hnew _) (hnew _), fun c hc => ?_, ?_, fun c hc => ?_, hlt⟩
  · rw [hfield c hc]
    simp
  · rw [hfield c hc]
    simp
  · rcases hold c hc with rfl | hc
    · exact hnew _
    · rw [hfield c hc]
      simpa using h.magic c hc
  · have hnsize : field m' n .size = k := hnew _
    refine pairwise_append.mpr ⟨?_, pairwise_cons.mpr ⟨fun y hy' => ?_, pairwise_cons.mpr ⟨fun y hy' => ?_, ?_⟩⟩,
      fun x hx y hy' => ?_⟩
    · exact hpx.imp_of_mem fun hx _ hxy => by
        rwa [hsizes _ (mem_append_left _ hx), if_neg (hne _ (mem_append_left _ hx))]
    · rw [hsizes a (by simp), if_pos rfl]
      rcases mem_cons.mp hy' with rfl | hy'
      · exact hsize
      · have := hy y hy'
        omega
    · rw [hnsize]
      exact hy y hy'
    · exact hpy.imp_of_mem fun hx _ hxy => by
        rwa [hsizes _ (by simp [hx]), if_neg (hne _ (mem_append_right _ hx))]
    · rw [hsizes x (mem_append_left _ hx), if_neg (hne x (mem_append_left _ hx))]
      have hxa := hpxa x hx a (.head _)
      rcases mem_cons.mp hy' with rfl | hy'
      · exact hxa
      · rcases mem_cons.mp hy' with rfl | hy'
        · omega
        · exact hpxa x hx y (mem_cons_of_mem a hy')
  · rcases hold c hc with rfl | hc
    · rw [show field m' c .size = k from hnew _]
      exact ⟨by omega, hn⟩
    · have hfits := h.fits c hc
      rw [hsizes c hc]
      split
      · next heq =>
        exact ⟨hfits.1, by omega⟩
      · exact ⟨hfits.1, by omega⟩

theorem mem_insert (hc : c ∈ xs ++ a :: n :: ys) : c = n ∨ c ∈ xs ++ a :: ys := by
  simp only [mem_append, mem_cons] at hc ⊢
  tauto

/-- Everything after `a` is after its end, and everything before it ends there. -/
theorem around (h : Blocks m (xs ++ a :: ys) top) (hc : c ∈ xs ++ a :: ys) :
    c = a ∨ c + 20 + field m c .size ≤ a ∨ a + 20 + field m a .size ≤ c := by
  by_cases hca : c = a
  · exact .inl hca
  · exact .inr (h.apart_of hc (by simp) hca)

private theorem split_spaced (h : Blocks m (xs ++ a :: ys) top) (hsize : size + 20 ≤ field m a .size) :
    Spaced (xs ++ a :: (a + 20 + size) :: ys) := by
  have hfits := (h.fits a (by simp)).2
  have htop := h.top_lt
  refine h.spaced.insert (by omega) (fun c hc => ?_) fun c hc => mem_insert hc
  have haround := h.around hc
  omega

theorem split_field (h : Blocks m (xs ++ a :: ys) top) (hsize : size + 20 ≤ field m a .size) (hc : c ∈ xs ++ a :: (a + 20 + size) :: ys) :
    field (split m a size) c f =
      if c = a + 20 + size then header (field m a .size - size - 20) 1 (field m a .next) a f
      else if c = a ∧ f = .size then size
      else if c = a ∧ f = .next then a + 20 + size
      else if ys.head? = some c ∧ f = .prev then a + 20 + size
      else field m c f := by
  have hs := h.split_spaced hsize
  have ha : a ∈ xs ++ a :: (a + 20 + size) :: ys := by simp
  have hn : a + 20 + size ∈ xs ++ a :: (a + 20 + size) :: ys := by simp
  have hfits := (h.fits a (by simp)).2
  have htop := h.top_lt
  have hrest : wrap (a + headerSize + size) = a + 20 + size := wrap_of_lt (by rw [headerSize]; omega)
  have hwrap : wrap (field m a .size + 2 ^ 32 - size + 2 ^ 32 - headerSize) = field m a .size - size - 20 := by
    rw [wrap, headerSize]
    omega
  have hne : a ≠ a + 20 + size := by omega
  have hnew : ∀ {c f}, c ∈ xs ++ a :: (a + 20 + size) :: ys →
      field (newBlock m (a + 20 + size) (field m a .size + 2 ^ 32 - size + 2 ^ 32 - headerSize) (field m a .next) a) c f =
        if c = a + 20 + size then header (field m a .size - size - 20) 1 (field m a .next) a f else field m c f := by
    intro c f hc
    rw [newBlock_field hs hn hc (field_lt m a .next) (by omega), hwrap]
  have hlt : a + 20 + size < 2 ^ 32 := by omega
  simp only [split, hrest, hnew ha, hne, if_false]
  rw [h.next_eq] at hnew ⊢
  cases ys with
  | nil =>
    simp only [head?_nil, getD_none, ne_eq, not_true, if_false, reduceCtorEq, false_and] at hnew ⊢
    rw [hs.field_set ha hc (by omega), hs.field_set ha hc hlt, hnew hc]
    by_cases hcn : c = a + 20 + size
    · simp [hcn, hne.symm]
    · by_cases hca : c = a
      · cases f <;> simp [hca, hne]
      · simp [hcn, hca]
  | cons y ys =>
    have hy : y ∈ xs ++ a :: (a + 20 + size) :: y :: ys := by simp
    have hy0 : y ≠ 0 := (h.fits y (by simp)).1.ne'
    have hya : y ≠ a + 20 + size := by
      have haround := h.around (c := y) (by simp)
      rintro rfl
      omega
    have hyne : y ≠ a := by
      rintro rfl
      have hd := (nodup_append.mp h.nodup).2.1
      exact (nodup_cons.mp hd).1 (.head _)
    simp only [head?_cons, getD_some, ne_eq, hy0, not_false_eq_true, if_true, some.injEq] at hnew ⊢
    rw [hs.field_set ha hc (by omega), hs.field_set ha hc hlt, hs.field_set hy hc hlt, hnew hc]
    by_cases hcn : c = a + 20 + size
    · subst hcn
      simp [hya.symm, hne.symm]
    · by_cases hca : c = a
      · cases f <;> simp [hca, hyne, hyne.symm, hne]
      · simp only [hcn, hca, false_and, if_false, eq_comm (a := c)]

theorem split (h : Blocks m (xs ++ a :: ys) top) (hsize : size + 20 ≤ field m a .size) :
    Blocks (split m a size) (xs ++ a :: (a + 20 + size) :: ys) top := by
  have hout : ∀ c ∈ xs ++ a :: ys, c ≠ a + 20 + size := by
    intro c hc heq
    have haround := h.around hc
    omega
  have hfits := (h.fits a (by simp)).2
  refine h.insert size (a + 20 + size) (field m a .size - size - 20) (fun c hc f => ?_) (fun f => ?_) le_rfl (fun y hy => ?_)
    (by omega) le_rfl h.top_lt (by omega)
  · rw [h.split_field hsize (by simp only [mem_append, mem_cons] at hc ⊢; tauto), if_neg (hout c hc)]
  · rw [h.split_field hsize (by simp), if_pos rfl]
  · have hay := (pairwise_cons.mp (pairwise_append.mp h.apart).2.1).1 y hy
    omega

private theorem split_kept (h : Blocks m (xs ++ a :: ys) top) (hf : field m a .free ≠ 0) (hsize : size + 20 ≤ field m a .size) :
    Kept none m (xs ++ a :: ys) (UserHeap.split m a size) (xs ++ a :: (a + 20 + size) :: ys) := by
  intro c hc _ hfc
  have hca : c ≠ a := by
    rintro rfl
    exact hf hfc
  have haround := (h.around hc).resolve_left hca
  have hcn : c ≠ a + 20 + size := by omega
  have hc' : c ∈ xs ++ a :: (a + 20 + size) :: ys := by
    simp only [mem_append, mem_cons] at hc ⊢
    tauto
  refine ⟨hc', ?_, ?_, ?_⟩
  · rw [h.split_field hsize hc']
    simpa [hcn, hca] using hfc
  · rw [h.split_field hsize hc']
    simp [hcn, hca]
  · have ha : a ∈ xs ++ a :: ys := by simp
    have hs := h.split_spaced hsize
    have hfits := (h.fits a ha).2
    have htop := h.top_lt
    have hrest : wrap (a + headerSize + size) = a + 20 + size := wrap_of_lt (by rw [headerSize]; omega)
    have hset : ∀ {y f v} (k : Memory), y ∈ xs ++ a :: ys → k.AgreeOn (setField k y f v) (c + 20) (field m c .size) :=
      fun k hy => h.set_agreeOn hy hc k
    have hnew : ∀ {s nx p}, m.AgreeOn (newBlock m (a + 20 + size) s nx p) (c + 20) (field m c .size) :=
      newBlock_agreeOn (by omega) (by omega)
    have hne : a ≠ a + 20 + size := by omega
    have hnext : ∀ s, field (newBlock m (a + 20 + size) s (field m a .next) a) a .next = ys.head?.getD 0 := by
      intro s
      rw [newBlock_field hs (by simp) (by simp) (field_lt m a .next) (by omega), if_neg hne, h.next_eq]
    simp only [UserHeap.split, hrest, hnext]
    cases ys with
    | nil =>
      simp only [head?_nil, getD_none, ne_eq, not_true, if_false]
      exact (hnew.trans (hset _ ha)).trans (hset _ ha)
    | cons y ys =>
      have hy0 : y ≠ 0 := (h.fits y (by simp)).1.ne'
      simp only [head?_cons, getD_some, ne_eq, hy0, not_false_eq_true, if_true]
      exact ((hnew.trans (hset _ (by simp))).trans (hset _ ha)).trans (hset _ ha)

theorem take (h : Blocks m (xs ++ a :: ys) top) (hf : field m a .free ≠ 0) (hsize : size ≤ field m a .size) (hlt : size + 36 < 2 ^ 32) :
    ∃ l', Blocks (take m a size) l' top ∧ a ∈ l' ∧ field (take m a size) a .free = 0 ∧
      size ≤ field (take m a size) a .size ∧ Kept none m (xs ++ a :: ys) (take m a size) l' ∧
      l'.head? = (xs ++ a :: ys).head? := by
  rw [UserHeap.take]
  by_cases hlarge : wrap (size + headerSize + 16) < field m a .size
  · rw [if_pos hlarge]
    have hroom : size + 20 ≤ field m a .size := by
      rw [wrap, headerSize] at hlarge
      omega
    have hb := h.split hroom
    have ha : a ∈ xs ++ a :: (a + 20 + size) :: ys := by simp
    refine ⟨_, hb.setFree ha (by decide), ha, hb.setFree_free ha (by decide), ?_, ?_, ?_⟩
    · rw [hb.spaced.field_set ha ha (by decide), if_neg (by simp), h.split_field hroom ha, if_neg (by omega), if_pos ⟨rfl, rfl⟩]
    · exact (h.split_kept hf hroom).trans_but (hb.setFree_kept ha (by decide)) hf
    · cases xs <;> rfl
  · rw [if_neg hlarge]
    have ha : a ∈ xs ++ a :: ys := by simp
    refine ⟨_, h.setFree ha (by decide), ha, h.setFree_free ha (by decide), ?_, ?_, rfl⟩
    · rw [h.spaced.field_set ha ha (by decide), if_neg (by simp)]
      exact hsize
    · exact Kept.refl.trans_but (h.setFree_kept ha (by decide)) hf

theorem grow (h : Blocks m (xs ++ [a]) top) (need : ℕ) (hn : top ≤ n) (hneed : 20 ≤ need) (hlt : n + need < 2 ^ 32) :
    let m' := setField (newBlock m n (need + 2 ^ 32 - headerSize) 0 a) a .next n
    Blocks m' (xs ++ [a, n]) (n + need) ∧ Kept none m (xs ++ [a]) m' (xs ++ [a, n]) ∧ field m' a .next = n ∧ field m' n .free = 1 ∧
      field m' n .size = need - 20 := by
  intro m'
  have ha : a ∈ xs ++ [a] := by simp
  have hfits := (h.fits a ha).2
  have hbelow : ∀ c ∈ xs ++ [a], c + 20 + field m c .size ≤ n := fun c hc => (h.fits c hc).2.trans hn
  have hs : Spaced (xs ++ [a, n]) := by
    refine h.spaced.insert (by omega) (fun c hc => ?_) fun c hc => mem_insert hc
    have := hbelow c hc
    omega
  have hwrap : wrap (need + 2 ^ 32 - headerSize) = need - 20 := by
    rw [wrap, headerSize]
    omega
  have ha' : a ∈ xs ++ [a, n] := by simp
  have hn' : n ∈ xs ++ [a, n] := by simp
  have hfield : ∀ c ∈ xs ++ [a, n], ∀ f, field m' c f =
      if c = a ∧ f = .next then n else if c = n then header (need - 20) 1 0 a f else field m c f := by
    intro c hc f
    rw [hs.field_set ha' hc (by omega), newBlock_field hs hn' hc (by decide) (by omega), hwrap]
  have hne : ∀ c ∈ xs ++ [a], c ≠ n := by
    intro c hc heq
    have := hbelow c hc
    omega
  have hin : ∀ c ∈ xs ++ [a], c ∈ xs ++ [a, n] := by
    intro c hc
    rcases mem_append.mp hc with hc | hc
    · exact mem_append_left _ hc
    · rwa [mem_singleton.mp hc]
  refine ⟨?_, fun c hc _ hfc => ⟨hin c hc, ?_, ?_, ?_⟩, ?_, ?_, ?_⟩
  · refine h.insert (field m a .size) n (need - 20) (fun c hc f => ?_) (fun f => ?_) (hbelow a ha) (by simp) (by omega)
      (by omega) hlt le_rfl
    · rw [hfield c (hin c hc), if_neg (hne c hc)]
      by_cases hca : c = a
      · cases f <;> simp [hca]
      · simp [hca]
    · rw [hfield n hn', if_neg fun heq => hne a ha heq.1.symm, if_pos rfl, h.next_eq]
      rfl
  · rw [hfield c (hin c hc), if_neg (by simp), if_neg (hne c hc)]
    exact hfc
  · rw [hfield c (hin c hc), if_neg (by simp), if_neg (hne c hc)]
  · have hnew : m.AgreeOn (newBlock m n (need + 2 ^ 32 - headerSize) 0 a) (c + 20) (field m c .size) :=
      newBlock_agreeOn (by omega) (.inr (hbelow c hc))
    exact hnew.trans (h.set_agreeOn ha hc _)
  · rw [hfield a ha', if_pos ⟨rfl, rfl⟩]
  · rw [hfield n hn', if_neg (by simp), if_pos rfl]
    rfl
  · rw [hfield n hn', if_neg (by simp), if_pos rfl]
    rfl

theorem coalesceNext (h : Blocks m (xs ++ a :: ys) top) (hf : field m a .free ≠ 0) :
    ∃ ys', Blocks (UserHeap.coalesceNext m a) (xs ++ a :: ys') top ∧ Kept none m (xs ++ a :: ys) (UserHeap.coalesceNext m a) (xs ++ a :: ys') ∧
      field (UserHeap.coalesceNext m a) a .free ≠ 0 := by
  rw [UserHeap.coalesceNext]
  split
  · next hnext =>
    rw [h.next_eq] at hnext ⊢
    cases ys with
    | nil => exact absurd rfl hnext.1
    | cons y ys =>
      refine ⟨ys, h.absorb, h.absorb_kept hf hnext.2, ?_⟩
      change field (UserHeap.absorb m a y) a .free ≠ 0
      rw [h.absorb_field (by simp)]
      simpa using hf
  · exact ⟨ys, h, .refl, hf⟩

theorem coalescePrev (h : Blocks m (xs ++ a :: ys) top) (hf : field m a .free ≠ 0) :
    ∃ l', Blocks (coalescePrev m a) l' top ∧ Kept none m (xs ++ a :: ys) (coalescePrev m a) l' ∧
      l'.head? = (xs ++ a :: ys).head? := by
  rw [UserHeap.coalescePrev]
  split
  · next hprev =>
    rw [h.prev_eq] at hprev ⊢
    rcases eq_nil_or_concat xs with rfl | ⟨zs, p, rfl⟩
    · exact absurd rfl hprev.1
    · rw [concat_eq_append, getLast?_concat, getD_some] at hprev ⊢
      have h' : Blocks m (zs ++ p :: a :: ys) top := by simpa using h
      refine ⟨zs ++ p :: ys, h'.absorb, ?_, ?_⟩
      · have hkept := h'.absorb_kept hprev.2 hf
        simpa using hkept
      · cases zs <;> rfl
  · exact ⟨_, h, .refl, rfl⟩

theorem length_lt (h : Blocks m l top) : l.length + 1 < 2 ^ 32 := by
  have hsub : l ⊆ range (2 ^ 32 - 20) := by
    intro a ha
    have hfits := (h.fits a ha).2
    have htop := h.top_lt
    exact mem_range.mpr (by omega)
  have hle := (h.nodup.subperm hsub).length_le
  rw [length_range] at hle
  omega

theorem inside (h : Blocks m l top) (ha : a ∈ l) (hsame : ∀ x, ¬ (a + 20 ≤ x ∧ x < a + 20 + field m a .size) → m' x = m x) :
    (∀ c ∈ l, ∀ f, field m' c f = field m c f) ∧ Kept (some a) m l m' l := by
  have hfield : ∀ c ∈ l, ∀ f, field m' c f = field m c f := by
    intro c hc f
    have hle := (h.spaced c hc).1
    have hoff := offset_le f
    rw [field_eq hle, field_eq hle]
    have hagree : m.AgreeOn m' (c + f.offset) 4 := by
      intro x hl hu
      refine hsame x fun hx => ?_
      by_cases hca : c = a
      · omega
      · have hapart := h.apart_of hc ha hca
        omega
    exact hagree.load32
  refine ⟨hfield, fun c hc hca hf => ⟨hc, (hfield c hc _).trans hf, hfield c hc _, fun x hl hu => hsame x fun hx => ?_⟩⟩
  have hne : c ≠ a := fun heq => hca (congrArg some heq.symm)
  have hapart := h.apart_of hc ha hne
  omega

end Blocks
end RetroOs.Apps
