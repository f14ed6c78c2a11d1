import RetroOs.Lib.Chain

/-! A table of links with owners: each owner has a head, the links from it end in a mark, and the cells
in use are those of the owners' chains, each in one of them. -/
namespace RetroOs.Lib
open List Function
variable {ι α : Type}

/-- The values of a link that are no cells, those that end a chain, and the value of a free cell, which
is also the head of an owner without cells. -/
structure Links (α : Type) where
  stop : α → Prop
  mark : α → Prop
  free : α
  mark_stop : ∀ a, mark a → stop a
  free_stop : stop free
  free_mark : ¬ mark free

/-- The chain from a head; it ends in a mark unless there is none. -/
def LinkChain (L : Links α) (next : α → α) (h : α) (k : List α) : Prop :=
  k = [] ∧ h = L.free ∨ k ≠ [] ∧ ∃ e, L.mark e ∧ Path L.stop next h k e

section
variable {L : Links α} {next next' : α → α} {h a c m : α} {k k' xs : List α}

theorem LinkChain.chain (hc : LinkChain L next h k) : Chain L.stop next h k := by
  rcases hc with ⟨rfl, rfl⟩ | ⟨-, e, he, hp⟩
  · exact chain_nil.mpr L.free_stop
  · exact ⟨e, L.mark_stop e he, hp⟩

theorem LinkChain.congr (hc : LinkChain L next h k) (he : ∀ a ∈ k, next' a = next a) : LinkChain L next' h k := by
  rcases hc with hnil | ⟨hne, e, hm, hp⟩
  · exact .inl hnil
  · exact .inr ⟨hne, e, hm, hp.congr he⟩

theorem Path.next_ne_free {e : α} (hp : Path L.stop next h k e) (he : L.mark e) (ha : a ∈ k) : next a ≠ L.free := by
  induction k generalizing h with
  | nil => cases ha
  | cons b k ih =>
    obtain ⟨rfl, -, hp⟩ := hp
    rcases mem_cons.mp ha with rfl | ha
    · intro hfree
      cases k with
      | nil =>
        have hend : next a = e := hp
        rw [← hend, hfree] at he
        exact L.free_mark he
      | cons b' k =>
        obtain ⟨hb, hstop, -⟩ := hp
        apply hstop
        rw [← hb, hfree]
        exact L.free_stop
    · exact ih hp ha

theorem LinkChain.next_ne_free (hc : LinkChain L next h k) (ha : a ∈ k) : next a ≠ L.free := by
  rcases hc with ⟨rfl, -⟩ | ⟨-, e, he, hp⟩
  · cases ha
  · exact hp.next_ne_free he ha

theorem LinkChain.single (hc : ¬ L.stop c) (hm : L.mark (next c)) : LinkChain L next c [c] :=
  .inr ⟨cons_ne_nil _ _, next c, hm, rfl, hc, rfl⟩

theorem LinkChain.head_eq (hc : LinkChain L next h k) (hh : h ≠ L.free) : ∃ ys, k = h :: ys := by
  rcases hc with ⟨-, hfree⟩ | ⟨hne, e, -, hp⟩
  · exact absurd hfree hh
  · cases k with
    | nil => exact absurd rfl hne
    | cons a ys => exact ⟨ys, by rw [hp.1]⟩

theorem LinkChain.last (hc : LinkChain L next h (xs ++ [a])) : L.mark (next a) := by
  rcases hc with ⟨hnil, -⟩ | ⟨-, e, he, hp⟩
  · exact absurd hnil (by simp)
  · obtain ⟨m, -, hm⟩ := path_append.mp hp
    obtain ⟨rfl, -, hend⟩ := hm
    rwa [show next m = e from hend]

theorem LinkChain.next_eq {ys : List α} (hc : LinkChain L next h (xs ++ a :: c :: ys)) : next a = c ∧ ¬ L.stop c := by
  obtain ⟨m, -, hm⟩ := chain_append.mp hc.chain
  obtain ⟨rfl, -, hm⟩ := chain_cons.mp hm
  obtain ⟨hnext, hstop, -⟩ := chain_cons.mp hm
  exact ⟨hnext, hstop⟩

theorem LinkChain.append (hc : LinkChain L next h (xs ++ [a])) (hca : ¬ L.stop c) (ha : next' a = c) (hm : L.mark (next' c))
    (he : ∀ b ∈ xs, next' b = next b) : LinkChain L next' h (xs ++ [a, c]) := by
  rcases hc with ⟨hnil, -⟩ | ⟨-, e, -, hp⟩
  · exact absurd hnil (by simp)
  · obtain ⟨f, hxs, hf⟩ := path_append.mp hp
    obtain ⟨rfl, hs, -⟩ := hf
    refine .inr ⟨by simp, next' c, hm, path_append.mpr ⟨f, hxs.congr he, rfl, hs, ?_⟩⟩
    rw [ha]
    exact ⟨rfl, hca, rfl⟩

end

structure Owned (L : Links α) (cell : α → Prop) (next : α → α) (live : ι → Prop) (head : ι → α) (ch : ι → List α) : Prop where
  chain : ∀ i, live i → LinkChain L next (head i) (ch i)
  cells : ∀ i, live i → ∀ c ∈ ch i, cell c
  disjoint : ∀ i j c, live i → live j → c ∈ ch i → c ∈ ch j → i = j
  used : ∀ c, cell c → next c ≠ L.free → ∃ i, live i ∧ c ∈ ch i

namespace Owned
variable {L : Links α} {cell : α → Prop} {next next' : α → α} {live live' : ι → Prop} {head head' : ι → α}
  {ch : ι → List α} {i : ι} {c a : α} {xs : List α}

theorem not_mem (h : Owned L cell next live head ch) (hc : next c = L.free) {j : ι} (hj : live j) : c ∉ ch j :=
  fun hmem => (h.chain j hj).next_ne_free hmem hc

theorem congr (h : Owned L cell next live head ch) (hnext : ∀ c, cell c → next' c = next c) (hlive : ∀ j, live' j ↔ live j)
    (hhead : ∀ j, live j → head' j = head j) : Owned L cell next' live' head' ch where
  chain j hj := by
    have hj := (hlive j).mp hj
    rw [hhead j hj]
    exact (h.chain j hj).congr fun c hc => hnext c (h.cells j hj c hc)
  cells j hj := h.cells j ((hlive j).mp hj)
  disjoint i j c hi hj := h.disjoint i j c ((hlive i).mp hi) ((hlive j).mp hj)
  used c hc hne := by
    rw [hnext c hc] at hne
    obtain ⟨j, hj, hcj⟩ := h.used c hc hne
    exact ⟨j, (hlive j).mpr hj, hcj⟩

variable [DecidableEq ι]

/-- The rule for a change of one owner: it gets the chain `k`, the others keep theirs. -/
theorem update (h : Owned L cell next live head ch) (i : ι) (k : List α) (hlive : ∀ j, j ≠ i → (live' j ↔ live j))
    (hhead : ∀ j, live j → j ≠ i → head' j = head j) (hnew : live' i → LinkChain L next' (head' i) k)
    (hcells : ∀ c ∈ k, cell c) (hother : ∀ j c, live j → j ≠ i → c ∈ ch j → next' c = next c ∧ c ∉ k)
    (hused : ∀ c, cell c → next' c ≠ L.free → live' i ∧ c ∈ k ∨ ∃ j, live j ∧ j ≠ i ∧ c ∈ ch j) :
    Owned L cell next' live' head' (update ch i k) where
  chain j hj := by
    by_cases hji : j = i
    · subst hji
      rw [update_self]
      exact hnew hj
    · have hj := (hlive j hji).mp hj
      rw [update_of_ne hji, hhead j hj hji]
      exact (h.chain j hj).congr fun c hc => (hother j c hj hji hc).1
  cells j hj c hc := by
    by_cases hji : j = i
    · subst hji
      rw [update_self] at hc
      exact hcells c hc
    · rw [update_of_ne hji] at hc
      exact h.cells j ((hlive j hji).mp hj) c hc
  disjoint j j' c hj hj' hc hc' := by
    by_cases hji : j = i
    · by_cases hji' : j' = i
      · rw [hji, hji']
      · subst hji
        rw [update_self] at hc
        rw [update_of_ne hji'] at hc'
        exact absurd hc (hother j' c ((hlive j' hji').mp hj') hji' hc').2
    · rw [update_of_ne hji] at hc
      have hj := (hlive j hji).mp hj
      by_cases hji' : j' = i
      · subst hji'
        rw [update_self] at hc'
        exact absurd hc' (hother j c hj hji hc).2
      · rw [update_of_ne hji'] at hc'
        exact h.disjoint j j' c hj ((hlive j' hji').mp hj') hc hc'
  used c hc hne := by
    rcases hused c hc hne with ⟨hi, hck⟩ | ⟨j, hj, hji, hcj⟩
    · exact ⟨i, hi, by rwa [update_self]⟩
    · exact ⟨j, (hlive j hji).mpr hj, by rwa [update_of_ne hji]⟩

theorem add (h : Owned L cell next live head ch) (hi : live i → ch i = []) (hlive : ∀ j, live' j ↔ live j ∨ j = i)
    (hhead : ∀ j, live j → j ≠ i → head' j = head j) (hc : cell c) (hfree : next c = L.free) (hstop : ¬ L.stop c)
    (hnext : ∀ e, cell e → e ≠ c → next' e = next e) (hmark : L.mark (next' c)) (hself : head' i = c) :
    Owned L cell next' live' head' (Function.update ch i [c]) := by
  apply h.update i [c] (fun j hji => by rw [hlive j]; exact or_iff_left hji) hhead
  · intro _
    rw [hself]
    exact .single hstop hmark
  · intro e he
    rwa [mem_singleton.mp he]
  · intro j e hj _ he
    have hec : e ≠ c := fun hec => h.not_mem hfree hj (hec ▸ he)
    exact ⟨hnext e (h.cells j hj e he) hec, fun hmem => hec (mem_singleton.mp hmem)⟩
  · intro e he hne
    by_cases hec : e = c
    · exact .inl ⟨(hlive i).mpr (.inr rfl), mem_singleton.mpr hec⟩
    · rw [hnext e he hec] at hne
      obtain ⟨j, hj, hej⟩ := h.used e he hne
      refine .inr ⟨j, hj, fun hji => ?_, hej⟩
      subst hji
      rw [hi hj] at hej
      cases hej

theorem add_empty (h : Owned L cell next live head ch) (hi : ¬ live i) (hlive : ∀ j, live' j ↔ live j ∨ j = i)
    (hhead : ∀ j, live j → j ≠ i → head' j = head j) (hnext : ∀ e, cell e → next' e = next e) (hself : head' i = L.free) :
    Owned L cell next' live' head' (Function.update ch i []) := by
  apply h.update i [] (fun j hji => by rw [hlive j]; exact or_iff_left hji) hhead
  · exact fun _ => .inl ⟨rfl, hself⟩
  · exact fun _ he => absurd he not_mem_nil
  · exact fun j e hj _ he => ⟨hnext e (h.cells j hj e he), not_mem_nil⟩
  · intro e he hne
    rw [hnext e he] at hne
    obtain ⟨j, hj, hej⟩ := h.used e he hne
    exact .inr ⟨j, hj, fun hji => hi (hji ▸ hj), hej⟩

theorem extend (h : Owned L cell next live head ch) (hi : live i) (hch : ch i = xs ++ [a]) (hc : cell c)
    (hfree : next c = L.free) (hstop : ¬ L.stop c) (hnext : ∀ e, cell e → e ≠ c → e ≠ a → next' e = next e)
    (ha : next' a = c) (hmark : L.mark (next' c)) : Owned L cell next' live head (Function.update ch i (xs ++ [a, c])) := by
  have hchain := h.chain i hi
  have hnd := hchain.chain.nodup
  have hcells := h.cells i hi
  have hci := h.not_mem hfree hi
  rw [hch] at hchain hnd hcells hci
  have hmem : ∀ e, e ∈ xs ++ [a, c] ↔ e ∈ xs ++ [a] ∨ e = c := by simp [or_assoc]
  apply h.update i (xs ++ [a, c]) (fun _ _ => Iff.rfl) (fun _ _ _ => rfl)
  · intro _
    apply hchain.append hstop ha hmark
    intro e he
    have hex := mem_append_left [a] he
    apply hnext e (hcells e hex)
    · rintro rfl
      exact hci hex
    · rintro rfl
      exact (nodup_append.mp hnd).2.2 e he e (mem_singleton_self e) rfl
  · intro e he
    rcases (hmem e).mp he with he | rfl
    · exact hcells e he
    · exact hc
  · intro j e hj hji he
    have hec : e ≠ c := fun hec => h.not_mem hfree hj (hec ▸ he)
    have hei : e ∉ xs ++ [a] := fun hei => hji (h.disjoint j i e hj hi he (hch ▸ hei))
    refine ⟨hnext e (h.cells j hj e he) hec ?_, fun hmem' => ?_⟩
    · rintro rfl
      exact hei (mem_append_right _ (mem_singleton_self e))
    · exact ((hmem e).mp hmem').elim hei hec
  · intro e he hne
    by_cases hmem' : e ∈ xs ++ [a, c]
    · exact .inl ⟨hi, hmem'⟩
    · have hno := fun hor => hmem' ((hmem e).mpr hor)
      rw [hnext e he (fun hec => hno (.inr hec)) (fun hea => hno (.inl (by simp [hea])))] at hne
      obtain ⟨j, hj, hej⟩ := h.used e he hne
      refine .inr ⟨j, hj, fun hji => ?_, hej⟩
      subst hji
      exact hno (.inl (hch ▸ hej))

theorem remove (h : Owned L cell next live head ch) (hi : live i) (hlive : ∀ j, live' j ↔ live j ∧ j ≠ i)
    (hhead : ∀ j, live j → j ≠ i → head' j = head j) (hfreed : ∀ e ∈ ch i, next' e = L.free)
    (hnext : ∀ e, cell e → e ∉ ch i → next' e = next e) :
    Owned L cell next' live' head' (Function.update ch i []) := by
  apply h.update i [] (fun j hji => by rw [hlive j]; exact and_iff_left hji) hhead
  · exact fun hi' => absurd rfl ((hlive i).mp hi').2
  · exact fun _ he => absurd he not_mem_nil
  · exact fun j e hj hji he => ⟨hnext e (h.cells j hj e he) fun hei => hji (h.disjoint j i e hj hi he hei), not_mem_nil⟩
  · intro e he hne
    have hei : e ∉ ch i := fun hei => hne (hfreed e hei)
    rw [hnext e he hei] at hne
    obtain ⟨j, hj, hej⟩ := h.used e he hne
    exact .inr ⟨j, hj, fun hji => hei (hji ▸ hej), hej⟩

end Owned
end RetroOs.Lib
