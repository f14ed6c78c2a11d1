import RetroOs.Net.DnsNames

/-! Names that were encoded: the form of a hostname on the wire, and what is decoded of it. -/
namespace RetroOs.Net
open Lib Subtype List Nat

namespace DnsName
open NameCursor

def dotChar : CChar := ⟨dot, by decide⟩

def hostname (labels : List CString) : CString := intercalate [dotChar] labels

def wire (labels : List CString) : List UInt8 :=
  labels.flatMap (fun label => UInt8.ofNat label.length :: label.map val) ++ [0]

variable {m : Memory} {len maxLen p n : Nat} {out : List UInt8} {names : List CString} {name : CString}

theorem wire_cons (name : CString) (names : List CString) :
    wire (name :: names) = UInt8.ofNat name.length :: (name.map val ++ wire names) := by
  rw [wire, wire, flatMap_cons, append_assoc, cons_append]

theorem length_wire_cons (name : CString) (names : List CString) :
    (wire (name :: names)).length = 1 + name.length + (wire names).length := by
  rw [wire_cons, length_cons, length_append, length_map]
  omega

theorem hostname_cons (name next : CString) (names : List CString) :
    hostname (name :: next :: names) = name ++ dotChar :: hostname (next :: names) := by
  simp [hostname, intercalate, intersperse]

theorem hostname_single (name : CString) : hostname [name] = name := by simp [hostname, intercalate]

private theorem encodeLoop_cons (h : IsLabel name) (hn : name.length ≤ n) (rest : CString) (hfront : rest = [] ∨ rest.head? = some dotChar) :
    ∃ k, n = k + 1 ∧ encodeLoop n (name ++ rest) =
      (UInt8.ofNat name.length :: (name.map val ++ (encodeLoop k rest.tail).1), (encodeLoop k rest.tail).2) := by
  have hpos := length_pos_of_ne_nil h.nonempty
  obtain ⟨n, rfl⟩ : ∃ k, n = k + 1 := ⟨n - 1, by omega⟩
  obtain ⟨htake, hdrop⟩ : (name ++ rest).takeWhile (fun c => !isDot c) = name ∧ (name ++ rest).drop (name.length + 1) = rest.tail := by
    rcases hfront with rfl | hhead
    · rw [append_nil]
      exact ⟨h.takeWhile, drop_of_length_le (le_succ _)⟩
    · obtain ⟨rest, rfl⟩ : ∃ xs, rest = dotChar :: xs := ⟨rest.tail, eq_cons_of_mem_head? hhead⟩
      refine ⟨takeWhile_label h (by decide) rest, ?_⟩
      rw [append_cons, drop_left' (by rw [length_append, length_singleton])]
      rfl
  refine ⟨n, rfl, ?_⟩
  have hshort := h.short
  cases hname : name ++ rest with
  | nil => exact absurd (append_eq_nil_iff.mp hname).1 h.nonempty
  | cons c cs =>
    rw [← hname, encodeLoop, htake, hdrop, if_neg (by omega)]
    · rfl
    · rw [hname]
      exact cons_ne_nil c cs

private theorem encodeLoop_hostname (h : ∀ name ∈ names, IsLabel name) (hn : (hostname names).length ≤ n) :
    encodeLoop n (hostname names) = (wire names, true) := by
  induction names generalizing n with
  | nil => exact encodeLoop_nil n
  | cons name names ih =>
    have hname := h name (.head _)
    have hnames : ∀ x ∈ names, IsLabel x := fun x hx => h x (.tail _ hx)
    rw [wire_cons]
    cases names with
    | nil =>
      rw [hostname_single] at hn ⊢
      obtain ⟨k, -, heq⟩ := encodeLoop_cons hname hn [] (.inl rfl)
      rw [append_nil] at heq
      rw [heq, tail_nil, encodeLoop_nil]
      rfl
    | cons next names =>
      rw [hostname_cons] at hn ⊢
      rw [length_append, length_cons] at hn
      obtain ⟨k, rfl, heq⟩ := encodeLoop_cons hname (show name.length ≤ n by omega) (dotChar :: hostname (next :: names)) (.inr rfl)
      rw [heq, tail_cons, ih hnames (by omega)]

private theorem says_wire (h : ∀ name ∈ names, IsLabel name) (hthere : m.bytes p (wire names).length = wire names)
    (hin : p + (wire names).length ≤ len) :
    Follows m len p (names.map fun name => name.map val) (p + (wire names).length - 1) ∧
      m (p + (wire names).length - 1) = 0 ∧ Extent m p (wire names).length := by
  induction names generalizing p with
  | nil =>
    have h0 : m p = 0 := singleton_inj.mp hthere
    exact ⟨.refl p, h0, .root h0⟩
  | cons name names ih =>
    have hname := h name (.head _)
    have hpos := length_pos_of_ne_nil hname.nonempty
    have hshort := hname.short
    rw [length_wire_cons] at hthere hin ⊢
    rw [wire_cons, add_assoc, add_comm 1, Memory.bytes_succ] at hthere
    obtain ⟨hlen, hrest⟩ := cons.inj hthere
    rw [Memory.bytes_add] at hrest
    obtain ⟨hbytes, htail⟩ := append_inj hrest (by rw [Memory.length_bytes, length_map])
    have hsize : (m p).toNat = name.length := by
      rw [hlen, UInt8.toNat_ofNat']
      exact mod_eq_of_lt (by omega)
    obtain ⟨hfollows, hend, hextent⟩ := ih (fun x hx => h x (.tail _ hx)) htail (by omega)
    have hne : m p ≠ 0 := fun h0 => by
      rw [h0] at hsize
      exact absurd hsize hpos.ne
    have hle : (m p).toNat ≤ 63 := hsize.trans_le hshort
    have hlast : p + (1 + name.length + (wire names).length) - 1 = p + 1 + name.length + (wire names).length - 1 := by omega
    rw [hlast]
    refine ⟨?_, hend, ?_⟩
    · rw [map_cons, ← hbytes, ← hsize]
      refine .label hne hle (by omega) ?_
      rw [hsize]
      exact hfollows
    · rw [← hsize]
      refine .label hne hle ?_
      rw [hsize]
      exact hextent

private theorem foldl_addLabel (hout : out ≠ []) (name : CString) (names : List CString) :
    ((name :: names).map fun name => name.map val).foldl addLabel out =
      out ++ dot :: (hostname (name :: names)).map Subtype.val := by
  have hadd : ∀ label, addLabel out label = out ++ dot :: label := fun label => by
    rw [addLabel, if_neg (by rw [List.isEmpty_iff]; exact hout), List.append_assoc, List.singleton_append]
  induction names generalizing out name with
  | nil => rw [map_singleton, foldl_cons, foldl_nil, hadd, hostname_single]
  | cons next names ih =>
    have hnext : addLabel out (name.map val) ≠ [] := by
      rw [hadd]
      exact append_ne_nil_of_right_ne_nil _ (cons_ne_nil _ _)
    rw [List.map_cons, List.foldl_cons, ih hnext, hadd, hostname_cons, List.map_append, List.map_cons, List.append_assoc]
    · rfl
    · exact fun label => by
        rw [addLabel, if_neg (by rw [List.isEmpty_iff]; exact hnext), List.append_assoc, List.singleton_append]

private theorem text_eq (h : ∀ name ∈ names, name ≠ []) :
    (names.map fun name => name.map val).foldl addLabel [] = (hostname names).map val := by
  cases names with
  | nil => rfl
  | cons name names =>
    have hname : addLabel [] (name.map val) = name.map val := rfl
    rw [map_cons, foldl_cons, hname]
    cases names with
    | nil => rw [hostname_single]; rfl
    | cons next names =>
      have hne : name.map val ≠ [] := fun hnil => h name (.head _) (map_eq_nil_iff.mp hnil)
      rw [foldl_addLabel hne, hostname_cons, map_append, map_cons]
      rfl

private theorem length_hostname (name : CString) (names : List CString) :
    (hostname (name :: names)).length + 2 = (wire (name :: names)).length := by
  induction names generalizing name with
  | nil =>
    rw [hostname_single, length_wire_cons, show (wire []).length = 1 from rfl]
    omega
  | cons next names ih =>
    rw [hostname_cons, length_wire_cons, ← ih, length_append, length_cons]
    omega

/-- A hostname of labels is encoded, and its code is decoded to it wherever it lies in a message. -/
theorem decode_encode {names : List CString} (h : ∀ name ∈ names, IsLabel name) (hlen : (wire names).length ≤ 255) :
    encode (hostname names) = (wire names, true) ∧ ∀ (m : Memory) (len p : Nat),
      m.bytes p (wire names).length = wire names → p + (wire names).length ≤ len →
        decode m len p Dns.maxName = some (some ((hostname names).map val, (wire names).length)) := by
  refine ⟨encodeLoop_hostname h (le_refl _), fun m len p hthere hin => ?_⟩
  obtain ⟨hfollows, hend, hextent⟩ := says_wire h hthere hin
  have htext := text_eq fun name hname => (h name hname).nonempty
  have hroom : ((hostname names).map val).length < Dns.maxName - 1 := by
    rw [length_map, show Dns.maxName - 1 = 255 from rfl]
    cases names with
    | nil => decide
    | cons name names =>
      rw [← length_hostname] at hlen
      omega
  rw [← htext] at hroom
  have hreturns := hfollows.decodes p none hend hroom hextent fun _ => le_refl p
  rw [htext, Nat.sub_self, Nat.zero_add] at hreturns
  exact (decode_iff (by decide)).mpr hreturns

theorem decode_encode_mail : (encode (hostname [.ofString "mail", .ofString "org"])).2 = true ∧
    decode (Memory.memcpy (fun _ => 0) 12 (wire [.ofString "mail", .ofString "org"])) 22 12 Dns.maxName =
      some (some ((hostname [.ofString "mail", .ofString "org"]).map val, 10)) := by
  have hlabels : ∀ name ∈ [CString.ofString "mail", CString.ofString "org"], IsLabel name := by
    intro name hname
    rcases mem_pair.mp hname with rfl | rfl
    · exact ⟨by decide, by decide, by decide +kernel⟩
    · exact ⟨by decide, by decide, by decide +kernel⟩
  obtain ⟨hencode, hdecode⟩ := decode_encode hlabels (by decide)
  exact ⟨by rw [hencode], hdecode _ 22 12 (by decide +kernel) (by decide)⟩

end DnsName
end RetroOs.Net
