import RetroOs.Lib.Runs
import RetroOs.Net.Dns

/-! Where the addresses come from that the resolver returns and keeps, over any run of calls and responses. -/
namespace RetroOs.Net
open Lib Option Dns List Function

/-- The calls of the tasks, once through the loop of `dns_resolve`, and what the network brings; with the times read. -/
inductive DnsCall where
  | resolve (task : Nat) (hostname : CString) (now start : UInt32)
  | iterate (task : Nat) (now start : UInt32)
  | resolveAsync (hostname : CString) (now : UInt32)
  | getResult
  | cacheClear
  | response (data : Memory) (length : Nat)

/-- The queries that were sent, and the responses with an address. -/
inductive DnsRecord where
  | query (id : UInt16) (hostname : CString)
  | response (id : UInt16) (ip : UInt32)
  deriving DecidableEq

/-- The hostname can be encoded. -/
def DnsName.Encodable (name : CString) : Prop := (DnsName.encode name).2 = true

instance (name : CString) : Decidable (DnsName.Encodable name) := inferInstanceAs (Decidable (_ = _))

/-- The resolver with the tasks in `dns_resolve`, the name last given to `dns_resolve_async`, and the history: the names
of the last query and of the address that is there, and what went over the network. -/
structure DnsRun extends Dns where
  waiting : Nat → Option DnsWait
  asyncHost : Option CString
  asked : Option CString
  found : Option CString
  log : List DnsRecord

namespace DnsRun

variable {s t : DnsRun} {c : DnsCall} {cs : List DnsCall} {l l' : List DnsRecord} {host : CString} {id : UInt16}
  {ip now start ttl : UInt32} {i : Nat} {d d' : Dns} {packet : Option (List UInt8)} {out : Option (CString × UInt32)}
  {data : Memory} {length task : Nat} {w : DnsWait}

def init : DnsRun where
  toDns := .init
  waiting _ := none
  asyncHost := none
  asked := none
  found := none
  log := []

def sent (s : DnsRun) (hostname : CString) (d : Dns) (packet : Option (List UInt8)) : DnsRun :=
  match packet with
  | none => { s with toDns := d }
  | some _ => { s with toDns := d, asked := some hostname, log := s.log ++ [.query s.txId hostname] }

def finish (s : DnsRun) (task : Nat) (hostname : CString) : DnsResult → DnsRun × Option (CString × UInt32)
  | .waits w => ({ s with waiting := update s.waiting task (some w) }, none)
  | .returns ip => ({ s with waiting := update s.waiting task none }, some (hostname, ip))

def exec (s : DnsRun) : DnsCall → Option (DnsRun × Option (CString × UInt32))
  | .resolve task hostname now start =>
    match s.waiting task with
    | some _ => none
    | none => (s.toDns.resolve hostname now start).map fun r => (s.sent hostname r.1 r.2.2).finish task hostname r.2.1
  | .iterate task now start =>
    match s.waiting task with
    | none => none
    | some w => (s.toDns.iterate w now start).map fun r => (s.sent w.hostname r.1 r.2.2).finish task w.hostname r.2.1
  | .resolveAsync hostname now =>
    (s.toDns.resolveAsync hostname now).map fun r =>
      ({ s.sent hostname r.1 r.2 with
          asyncHost := some hostname
          found := if (s.toDns.cacheLookup hostname now).2 ≠ 0 then some hostname else s.found }, none)
  | .getResult => some (s, s.asyncHost.bind fun host => s.toDns.getResult.2.map fun ip => (host, ip))
  | .cacheClear => some ({ s with toDns := s.toDns.cacheClear }, none)
  | .response data length =>
    (s.toDns.rxHandler data length).map fun d =>
      match answer data length with
      | some (some ip) =>
        ({ s with
            toDns := d
            found := if Dns.id data = s.pendingId then s.asked else s.found
            log := s.log ++ [.response (Dns.id data) ip] }, none)
      | _ => ({ s with toDns := d }, none)

def Answered (l : List DnsRecord) (host : CString) (ip : UInt32) : Prop :=
  ∃ l₁ l₂ l₃ id, l = l₁ ++ .query id host :: l₂ ++ .response id ip :: l₃ ∧ ∀ host', DnsRecord.query id host' ∉ l₂

def LastQuery (l : List DnsRecord) (id : UInt16) (host : CString) : Prop :=
  ∃ l₁ l₂, l = l₁ ++ .query id host :: l₂ ∧ ∀ host', DnsRecord.query id host' ∉ l₂

/-- An address is taken for the hostname that it was found for only, and kept only where the name fits in the cache. -/
def Clean (s : DnsRun) : DnsCall → Prop
  | .iterate task _ _ => ∀ w ∈ s.waiting task, w.retries < maxRetries → s.responseReceived = 1 →
      s.found = some w.hostname ∧ w.hostname.length < maxName
  | .getResult => ∀ host ∈ s.asyncHost, s.responseReceived = 1 → s.found = some host
  | _ => True

instance (s : DnsRun) (c : DnsCall) : Decidable (s.Clean c) :=
  match c with
  | .iterate task _ _ => inferInstanceAs (Decidable (∀ w ∈ s.waiting task, w.retries < maxRetries →
      s.responseReceived = 1 → s.found = some w.hostname ∧ w.hostname.length < maxName))
  | .getResult => inferInstanceAs (Decidable (∀ host ∈ s.asyncHost, s.responseReceived = 1 → s.found = some host))
  | .resolve .. | .resolveAsync .. | .cacheClear | .response .. => inferInstanceAs (Decidable True)

def hostOf (s : DnsRun) : DnsCall → Option CString
  | .resolve _ hostname _ _ => some hostname
  | .iterate task _ _ => (s.waiting task).map DnsWait.hostname
  | .resolveAsync hostname _ => some hostname
  | .getResult => s.asyncHost
  | _ => none

/-- What a run of such calls keeps. -/
structure Inv (s : DnsRun) : Prop where
  asked : ∀ host ∈ s.asked, DnsName.Encodable host ∧ LastQuery s.log s.pendingId host
  found : s.responseReceived = 1 → ∀ host ∈ s.found,
    DnsName.Encodable host ∧ (s.resolvedIp ≠ 0 → Answered s.log host s.resolvedIp)
  cache : ∀ i, (s.cache i).valid = true →
    DnsName.Encodable (s.cache i).name ∧ ((s.cache i).ip ≠ 0 → Answered s.log (s.cache i).name (s.cache i).ip)

theorem init_inv : Inv init where
  asked _ h := nomatch h
  found h := absurd h (by decide)
  cache _ h := nomatch h

theorem Answered.append (h : Answered l host ip) (l' : List DnsRecord) : Answered (l ++ l') host ip := by
  obtain ⟨l₁, l₂, l₃, id, rfl, hlast⟩ := h
  exact ⟨l₁, l₂, l₃ ++ l', id, by simp, hlast⟩

theorem LastQuery.response (h : LastQuery l id host) (id' : UInt16) (ip : UInt32) :
    LastQuery (l ++ [.response id' ip]) id host := by
  obtain ⟨l₁, l₂, rfl, hlast⟩ := h
  refine ⟨l₁, l₂ ++ [.response id' ip], by simp, fun host' hmem => ?_⟩
  rcases mem_append.mp hmem with hmem | hmem
  · exact hlast host' hmem
  · cases mem_singleton.mp hmem

private theorem lastQuery_query (l : List DnsRecord) (id : UInt16) (host : CString) : LastQuery (l ++ [.query id host]) id host :=
  ⟨l, [], rfl, fun _ h => nomatch h⟩

theorem LastQuery.answered (h : LastQuery l id host) (ip : UInt32) : Answered (l ++ [.response id ip]) host ip := by
  obtain ⟨l₁, l₂, rfl, hlast⟩ := h
  exact ⟨l₁, l₂, [], id, rfl, hlast⟩

end DnsRun

namespace Dns

variable {s t : Dns} {host : CString} {ip now start ttl : UInt32} {i : Nat} {packet : Option (List UInt8)}

theorem setEntry_self (s : Dns) (i : Nat) (e : DnsCacheEntry) : (s.setEntry i e).cache i = e := update_self ..

theorem setEntry_other {j : Nat} {e : DnsCacheEntry} (h : j ≠ i) : (s.setEntry i e).cache j = s.cache j :=
  update_of_ne h ..

/-- The entries are those of before, but some of the name are no longer valid. -/
structure Expired (s : Dns) (host : CString) (t : Dns) : Prop where
  rest : t = { s with cache := t.cache }
  entry : ∀ i, t.cache i = s.cache i ∨ (s.cache i).Named host ∧ t.cache i = (s.cache i).invalidate

theorem Expired.refl (s : Dns) (host : CString) : Expired s host s := ⟨rfl, fun _ => .inl rfl⟩

theorem Expired.next (hn : (s.cache i).Named host) (h : Expired (s.setEntry i (s.cache i).invalidate) host t) :
    Expired s host t := by
  refine ⟨h.rest, fun j => ?_⟩
  by_cases hji : j = i
  · subst hji
    refine .inr ⟨hn, ?_⟩
    rcases h.entry j with hsame | ⟨-, hgone⟩
    · rw [hsame, setEntry_self]
    · rw [hgone, setEntry_self]
      rfl
  · have hentry := h.entry j
    rw [setEntry_other hji] at hentry
    exact hentry

theorem lookupLoop_spec (host : CString) (now : UInt32) (is : List Nat) (s : Dns) :
    Expired s host (lookupLoop host now is s).1 ∧
      ((lookupLoop host now is s).2 ≠ 0 → ∃ i, (s.cache i).Named host ∧ (s.cache i).ip = (lookupLoop host now is s).2) := by
  induction is generalizing s with
  | nil => exact ⟨.refl s host, fun h => absurd rfl h⟩
  | cons i is ih =>
    rw [lookupLoop]
    split
    · next hn =>
      split
      · exact ⟨.refl s host, fun _ => ⟨i, hn, rfl⟩⟩
      · obtain ⟨hexp, hfound⟩ := ih (s.setEntry i (s.cache i).invalidate)
        refine ⟨hexp.next hn, fun hne => ?_⟩
        obtain ⟨j, hj, hip⟩ := hfound hne
        have hji : j ≠ i := by
          rintro rfl
          rw [setEntry_self] at hj
          cases hj.1
        rw [setEntry_other hji] at hj hip
        exact ⟨j, hj, hip⟩
    · exact ih s

private theorem sendQuery_cases {qtype : UInt16} (h : s.sendQuery host qtype = some (t, packet)) :
    ¬ DnsName.Encodable host ∧ t = s ∧ packet = none ∨
      DnsName.Encodable host ∧ packet.isSome = true ∧
        t = { s with txId := s.txId + 1, pendingId := s.txId, responseReceived := 0, resolvedIp := 0 } := by
  rw [sendQuery] at h
  split at h
  · cases h
  · split at h
    · next hno =>
      cases h
      exact .inl ⟨by rw [DnsName.Encodable, hno]; exact Bool.false_ne_true, rfl, rfl⟩
    · next hyes =>
      split at h
      · cases h
      · cases h
        exact .inr ⟨Bool.eq_true_of_not_eq_false hyes, rfl, rfl⟩

private theorem cacheInsert_cases (s : Dns) (hlen : host.length < maxName) (ip ttl now : UInt32) :
    ∃ i, s.cacheInsert host ip ttl now = s.setEntry i { name := host, ip, ttl, timestamp := now, valid := true } := by
  rw [cacheInsert]
  split
  · next i hfound =>
    have hnamed : (s.cache i).Named host := by simpa using find?_some hfound
    refine ⟨i, ?_⟩
    rw [← hnamed.2]
    congr 1
    cases hentry : s.cache i
    rw [hentry] at hnamed
    obtain rfl := hnamed.1
    rfl
  · refine ⟨oldest s.cache (range cacheSize) 0 0xFFFFFFFF, ?_⟩
    rw [take_of_length_le (Nat.le_sub_one_of_lt hlen)]

private theorem rxHandler_found {data : Memory} {length : Nat} (ha : answer data length = some (some ip)) :
    s.rxHandler data length =
      some (if id data = s.pendingId then { s with resolvedIp := ip, responseReceived := 1 } else s) := by
  have hparts := ha
  rw [answer] at hparts
  rw [rxHandler]
  split at hparts
  · cases hparts
  · next hlen =>
    rw [if_neg hlen]
    by_cases hid : id data = s.pendingId
    · rw [if_neg (not_not.mpr hid), if_pos hid]
      split at hparts
      · cases hparts
      · next hflags =>
        split at hparts
        · cases hparts
        · next hcount =>
          rw [if_neg (not_or.mpr ⟨hflags, hcount⟩), ha]
          rfl
    · rw [if_pos hid, if_neg hid]

private theorem rxHandler_other {data : Memory} {length : Nat} (ha : ∀ ip, answer data length ≠ some (some ip))
    (h : s.rxHandler data length = some t) : t = s ∨ t = { s with responseReceived := -1 } := by
  rw [rxHandler] at h
  split at h
  · exact .inl (some.inj h).symm
  · split at h
    · exact .inl (some.inj h).symm
    · split at h
      · exact .inr (some.inj h).symm
      · obtain ⟨found, hfound, rfl⟩ := map_eq_some_iff.mp h
        cases found with
        | some ip => exact absurd hfound (ha ip)
        | none =>
          dsimp only
          split
          · exact .inr rfl
          · exact .inl rfl

theorem Expired.same (h : Expired s host t) (hno : ∀ i, ¬ (s.cache i).Named host) : t = s := by
  have hcache : t.cache = s.cache := by
    funext i
    rcases h.entry i with hsame | ⟨hn, -⟩
    · exact hsame
    · exact absurd hn (hno i)
  rw [h.rest, hcache]

end Dns

namespace DnsRun

variable {s t : DnsRun} {c : DnsCall} {cs : List DnsCall} {host : CString} {ip now start : UInt32} {d : Dns}
  {packet : Option (List UInt8)} {out : Option (CString × UInt32)} {data : Memory} {length task : Nat} {w : DnsWait} {r : DnsResult}

/-- What a call keeps that a call for the hostname may not violate. -/
structure Sound (s : DnsRun) (c : DnsCall) (t : DnsRun) (out : Option (CString × UInt32)) : Prop where
  answered : ∀ r ∈ out, r.2 ≠ 0 → Answered t.log r.1 r.2
  refused : ∀ host ∈ s.hostOf c, ¬ DnsName.Encodable host → t.toDns = s.toDns ∧ ∀ r ∈ out, r.2 = 0

theorem Inv.expired (h : Inv s) (he : s.toDns.Expired host d) : Inv { s with toDns := d } := by
  obtain ⟨hrest, hentry⟩ := he
  refine ⟨?_, ?_, ?_⟩
  · intro host' ha
    rw [hrest]
    exact h.asked host' ha
  · show d.responseReceived = 1 → ∀ host ∈ s.found, _ ∧ (d.resolvedIp ≠ 0 → Answered s.log host d.resolvedIp)
    rw [hrest]
    exact h.found
  · intro i hv
    have hv : (d.cache i).valid = true := hv
    rcases hentry i with hsame | ⟨-, hgone⟩
    · rw [hsame] at hv ⊢
      exact h.cache i hv
    · rw [hgone] at hv
      cases hv

theorem Inv.not_named (h : Inv s) (he : ¬ DnsName.Encodable host) (i : Nat) : ¬ (s.cache i).Named host := by
  rintro ⟨hv, rfl⟩
  exact he (h.cache i hv).1

theorem Inv.sent (h : Inv s) (hr : s.toDns.sendQuery host typeA = some (d, packet)) : Inv (s.sent host d packet) := by
  rcases sendQuery_cases hr with ⟨-, rfl, rfl⟩ | ⟨henc, hsome, rfl⟩
  · exact h
  · obtain ⟨p, rfl⟩ := isSome_iff_exists.mp hsome
    refine ⟨?_, fun (h1 : (0 : Int) = 1) => absurd h1 (by decide), ?_⟩
    · intro host' ha
      cases ha
      exact ⟨henc, lastQuery_query s.log s.txId host⟩
    · intro i hv
      obtain ⟨hname, hans⟩ := h.cache i hv
      exact ⟨hname, fun hip => (hans hip).append _⟩

theorem Inv.finish (h : Inv s) (task : Nat) (host : CString) (r : DnsResult) : Inv (s.finish task host r).1 := by
  cases r with
  | returns ip => exact ⟨h.asked, h.found, h.cache⟩
  | waits w => exact ⟨h.asked, h.found, h.cache⟩

theorem Inv.lookup (h : Inv s) (host : CString) (now : UInt32) :
    Inv { s with toDns := (s.toDns.cacheLookup host now).1 } ∧
      ((s.toDns.cacheLookup host now).2 ≠ 0 → DnsName.Encodable host ∧ Answered s.log host (s.toDns.cacheLookup host now).2) := by
  obtain ⟨hexp, hfound⟩ := lookupLoop_spec host now (range cacheSize) s.toDns
  refine ⟨h.expired hexp, fun hne => ?_⟩
  obtain ⟨i, ⟨hv, hname⟩, hip⟩ := hfound hne
  obtain ⟨henc, hans⟩ := h.cache i hv
  rw [hname] at henc hans
  refine ⟨henc, ?_⟩
  rw [cacheLookup, ← hip]
  exact hans (by rw [hip]; exact hne)

theorem Inv.lookup_refused (h : Inv s) (he : ¬ DnsName.Encodable host) (now : UInt32) :
    s.toDns.cacheLookup host now = (s.toDns, 0) := by
  obtain ⟨hexp, hfound⟩ := lookupLoop_spec host now (range cacheSize) s.toDns
  have hno := h.not_named he
  refine Prod.ext (hexp.same hno) ?_
  by_contra hne
  obtain ⟨i, hi, -⟩ := hfound hne
  exact hno i hi

@[simp] theorem sent_toDns (s : DnsRun) (host : CString) (d : Dns) (packet : Option (List UInt8)) :
    (s.sent host d packet).toDns = d := by
  cases packet <;> rfl

private theorem sent_log (s : DnsRun) (host : CString) (d : Dns) (packet : Option (List UInt8)) :
    ∃ l, (s.sent host d packet).log = s.log ++ l := by
  cases packet with
  | none => exact ⟨[], (append_nil _).symm⟩
  | some p => exact ⟨_, rfl⟩

@[simp] theorem finish_log (s : DnsRun) (task : Nat) (host : CString) (r : DnsResult) : (s.finish task host r).1.log = s.log := by
  cases r <;> rfl

@[simp] theorem finish_toDns (s : DnsRun) (task : Nat) (host : CString) (r : DnsResult) :
    (s.finish task host r).1.toDns = s.toDns := by
  cases r <;> rfl

/-- What a call for the hostname, or once through its loop, may do. -/
structure Answers (s : DnsRun) (host : CString) (d : Dns) (r : DnsResult) (packet : Option (List UInt8)) : Prop where
  inv : Inv (s.sent host d packet)
  answered : ∀ ip, r = .returns ip → ip ≠ 0 → Answered s.log host ip
  refused : ¬ DnsName.Encodable host → d = s.toDns ∧ ∀ ip, r = .returns ip → ip = 0

theorem Answers.finish (h : Answers s host d r packet) (task : Nat) (hhost : ∀ host' ∈ s.hostOf c, host' = host) :
    Inv ((s.sent host d packet).finish task host r).1 ∧
      Sound s c ((s.sent host d packet).finish task host r).1 ((s.sent host d packet).finish task host r).2 := by
  have hout : ∀ a ∈ ((s.sent host d packet).finish task host r).2, a.1 = host ∧ r = .returns a.2 := by
    cases r with
    | waits w => exact fun _ ha => (nomatch ha)
    | returns ip =>
      intro a ha
      cases ha
      exact ⟨rfl, rfl⟩
  refine ⟨h.inv.finish task host r, ?_, ?_⟩
  · intro a ha hne
    obtain ⟨hname, hr⟩ := hout a ha
    obtain ⟨l, hl⟩ := s.sent_log host d packet
    rw [finish_log, hl, hname]
    exact (h.answered a.2 hr hne).append l
  · intro host' hh he
    rw [hhost host' hh] at he
    obtain ⟨hd, hzero⟩ := h.refused he
    refine ⟨?_, fun a ha => hzero a.2 (hout a ha).2⟩
    rw [finish_toDns, sent_toDns, hd]

theorem Inv.send (h : Inv s) (hs : s.toDns.sendQuery host typeA = some (d, packet)) (w : DnsWait) :
    Answers s host d (.waits w) packet := by
  refine ⟨h.sent hs, fun _ hr => (nomatch hr), fun he => ⟨?_, fun _ hr => (nomatch hr)⟩⟩
  rcases sendQuery_cases hs with ⟨-, rfl, -⟩ | ⟨henc, -⟩
  · rfl
  · exact absurd henc he

theorem Inv.lookup_send (h : Inv s) (hs : (s.toDns.cacheLookup host now).1.sendQuery host typeA = some (d, packet))
    (w : DnsWait) : Answers s host d (.waits w) packet := by
  obtain ⟨hinv, -⟩ := h.lookup host now
  have hrefused : ¬ DnsName.Encodable host → s.toDns.cacheLookup host now = (s.toDns, 0) := fun he => h.lookup_refused he now
  obtain ⟨cache, hkept⟩ : ∃ cache, (s.toDns.cacheLookup host now).1 = { s.toDns with cache } :=
    ⟨_, (lookupLoop_spec host now (range cacheSize) s.toDns).1.rest⟩
  rcases hl : s.toDns.cacheLookup host now with ⟨d₁, cached⟩
  rw [hl] at hinv hs hkept
  obtain rfl : d₁ = _ := hkept
  have hans := hinv.send (s := { s with toDns := { s.toDns with cache } }) hs w
  refine ⟨?_, hans.answered, fun he => ?_⟩
  · have hsame := hans.inv
    cases packet with
    | none => exact hsame
    | some p => exact hsame
  · obtain ⟨hd, hzero⟩ := hans.refused he
    rw [hrefused he] at hl
    exact ⟨hd.trans (Prod.mk.inj hl).1.symm, hzero⟩

theorem Inv.resolve (h : Inv s) (hres : s.toDns.resolve host now start = some (d, r, packet)) : Answers s host d r packet := by
  obtain ⟨hinv, hfound⟩ := h.lookup host now
  rw [Dns.resolve] at hres
  dsimp only at hres
  split at hres
  · next hne =>
    cases hres
    refine ⟨hinv, ?_, fun he => absurd (hfound hne).1 he⟩
    intro ip hip _
    obtain rfl := DnsResult.returns.inj hip
    exact (hfound hne).2
  · obtain ⟨⟨d', packet'⟩, hsend, hr⟩ := map_eq_some_iff.mp hres
    cases hr
    exact h.lookup_send hsend _

theorem Inv.idle (h : Inv s) (host : CString) (hr : ∀ ip, r = .returns ip → ip = 0) : Answers s host s.toDns r none :=
  ⟨h, fun ip hip hne => absurd (hr ip hip) hne, fun _ => ⟨rfl, hr⟩⟩

theorem Inv.insert (h : Inv s) (i : Nat) {e : DnsCacheEntry} (henc : DnsName.Encodable e.name)
    (hans : e.ip ≠ 0 → Answered s.log e.name e.ip) : Inv { s with toDns := s.toDns.setEntry i e } := by
  refine ⟨h.asked, h.found, fun j hj => ?_⟩
  have hj : ((s.toDns.setEntry i e).cache j).valid = true := hj
  show DnsName.Encodable ((s.toDns.setEntry i e).cache j).name ∧
    (((s.toDns.setEntry i e).cache j).ip ≠ 0 → Answered s.log ((s.toDns.setEntry i e).cache j).name _)
  by_cases hji : j = i
  · rw [hji, setEntry_self]
    exact ⟨henc, hans⟩
  · rw [setEntry_other hji] at hj ⊢
    exact h.cache j hj

theorem Inv.iterate (h : Inv s) (hclean : w.retries < maxRetries → s.responseReceived = 1 →
    s.found = some w.hostname ∧ w.hostname.length < maxName) (hres : s.toDns.iterate w now start = some (d, r, packet)) :
    Answers s w.hostname d r packet := by
  rw [Dns.iterate] at hres
  split at hres
  · cases hres
    exact h.idle _ fun ip hip => (DnsResult.returns.inj hip).symm
  · next hretries =>
    split at hres
    · next hone =>
      cases hres
      obtain ⟨hfound, hlen⟩ := hclean (Nat.lt_of_not_le hretries) hone
      obtain ⟨henc, hans⟩ := h.found hone w.hostname hfound
      refine ⟨?_, ?_, fun he => absurd henc he⟩
      · obtain ⟨i, hi⟩ := s.toDns.cacheInsert_cases hlen s.resolvedIp 300 now
        rw [hi]
        exact h.insert i henc hans
      · intro ip hip hne
        obtain rfl := DnsResult.returns.inj hip
        exact hans hne
    · split at hres
      · cases hres
        exact h.idle _ fun ip hip => (DnsResult.returns.inj hip).symm
      · split at hres
        · split at hres
          · obtain ⟨⟨d', packet'⟩, hsend, hr⟩ := map_eq_some_iff.mp hres
            cases hr
            exact h.send hsend _
          · cases hres
            exact h.idle _ fun _ hr => (nomatch hr)
        · cases hres
          exact h.idle _ fun _ hr => (nomatch hr)

theorem Inv.async (h : Inv s) (hc : s.exec (.resolveAsync host now) = some (t, out)) :
    Inv t ∧ Sound s (.resolveAsync host now) t out := by
  obtain ⟨⟨d, packet⟩, hres, hr⟩ := map_eq_some_iff.mp hc
  cases hr
  obtain ⟨hinv, hfound⟩ := h.lookup host now
  rw [resolveAsync] at hres
  dsimp only at hres ⊢
  split at hres
  · next hne =>
    cases hres
    rw [if_pos hne]
    refine ⟨⟨hinv.asked, ?_, hinv.cache⟩, fun _ ha => (nomatch ha), fun host' hh he => ?_⟩
    · intro _ host' hh
      cases hh
      exact ⟨(hfound hne).1, fun _ => (hfound hne).2⟩
    · cases hh
      exact absurd (hfound hne).1 he
  · next hzero =>
    have hans := h.lookup_send hres { hostname := host, start := 0, retries := 0 }
    rw [if_neg hzero]
    refine ⟨?_, fun _ ha => (nomatch ha), fun host' hh he => ⟨?_, fun _ ha => (nomatch ha)⟩⟩
    · have hfoundSame : (s.sent host d packet).found = s.found := by cases packet <;> rfl
      exact ⟨hans.inv.asked, fun hone host' hh => hans.inv.found hone host' (hfoundSame ▸ hh), hans.inv.cache⟩
    · cases hh
      exact (sent_toDns s host d packet).trans (hans.refused he).1

theorem Inv.response (h : Inv s) (hc : s.exec (.response data length) = some (t, out)) : Inv t ∧ out = none := by
  obtain ⟨d, hd, hr⟩ := map_eq_some_iff.mp hc
  split at hr
  · next ip ha =>
    cases hr
    refine ⟨?_, rfl⟩
    rw [rxHandler_found ha] at hd
    cases hd
    have hcache : ∀ i, (s.cache i).valid = true → DnsName.Encodable (s.cache i).name ∧
        ((s.cache i).ip ≠ 0 → Answered (s.log ++ [.response (id data) ip]) (s.cache i).name (s.cache i).ip) :=
      fun i hv => ⟨(h.cache i hv).1, fun hip => ((h.cache i hv).2 hip).append _⟩
    have hasked : ∀ host ∈ s.asked, DnsName.Encodable host ∧ LastQuery (s.log ++ [.response (id data) ip]) s.pendingId host :=
      fun host ha => ⟨(h.asked host ha).1, (h.asked host ha).2.response _ _⟩
    by_cases hid : Dns.id data = s.pendingId
    · rw [if_pos hid, if_pos hid]
      refine ⟨hasked, fun _ host hh => ⟨(h.asked host hh).1, fun _ => ?_⟩, hcache⟩
      rw [hid]
      exact (h.asked host hh).2.answered ip
    · rw [if_neg hid, if_neg hid]
      refine ⟨hasked, fun h1 host hh => ?_, hcache⟩
      obtain ⟨henc, hans⟩ := h.found h1 host hh
      exact ⟨henc, fun hip => (hans hip).append _⟩
  · next ha =>
    cases hr
    refine ⟨?_, rfl⟩
    rcases rxHandler_other ha hd with rfl | rfl
    · exact h
    · exact ⟨h.asked, fun (h1 : (-1 : Int) = 1) => absurd h1 (by decide), h.cache⟩

theorem Inv.step (h : Inv s) (hclean : s.Clean c) (hc : s.exec c = some (t, out)) : Inv t ∧ Sound s c t out := by
  cases c with
  | resolve task host now start =>
    rw [exec] at hc
    split at hc
    · cases hc
    · obtain ⟨⟨d, r, packet⟩, hres, hfin⟩ := map_eq_some_iff.mp hc
      obtain ⟨rfl, rfl⟩ := Prod.mk.inj hfin
      exact (h.resolve hres).finish task fun _ hh => (some.inj hh).symm
  | iterate task now start =>
    rw [exec] at hc
    split at hc
    · cases hc
    · next w hw =>
      obtain ⟨⟨d, r, packet⟩, hres, hfin⟩ := map_eq_some_iff.mp hc
      obtain ⟨rfl, rfl⟩ := Prod.mk.inj hfin
      refine (h.iterate (hclean w hw) hres).finish task fun host hh => ?_
      rw [hostOf, hw] at hh
      exact (some.inj hh).symm
  | resolveAsync host now => exact h.async hc
  | getResult =>
    cases hc
    have hout : ∀ a ∈ s.asyncHost.bind fun host => s.toDns.getResult.2.map fun ip => (host, ip),
        a.1 ∈ s.asyncHost ∧ s.responseReceived = 1 ∧ a.2 = s.resolvedIp := by
      intro a ha
      obtain ⟨host, hhost, ha⟩ := bind_eq_some_iff.mp ha
      obtain ⟨ip, hip, rfl⟩ := map_eq_some_iff.mp ha
      rw [getResult] at hip
      split at hip
      · next hone =>
        cases hip
        exact ⟨hhost, hone, rfl⟩
      · split at hip
        · cases hip
        · cases hip
    refine ⟨h, ?_, ?_⟩
    · intro a ha hne
      obtain ⟨hhost, hone, hip⟩ := hout a ha
      rw [hip] at hne ⊢
      exact (h.found hone a.1 (hclean a.1 hhost hone)).2 hne
    · intro host hh he
      refine ⟨rfl, fun a ha => ?_⟩
      obtain ⟨hhost, hone, -⟩ := hout a ha
      obtain rfl : a.1 = host := mem_unique hhost hh
      exact absurd (h.found hone a.1 (hclean a.1 hhost hone)).1 he
  | cacheClear =>
    cases hc
    exact ⟨⟨h.asked, h.found, fun _ hv => (nomatch hv)⟩, fun _ ha => (nomatch ha), fun _ hh => (nomatch hh)⟩
  | response data length =>
    obtain ⟨hinv, rfl⟩ := h.response hc
    exact ⟨hinv, fun _ ha => (nomatch ha), fun _ hh => (nomatch hh)⟩

/-- A step in which an address is taken for the hostname that it was found for. -/
def CleanStep (s : DnsRun) (c : DnsCall) (t : DnsRun) : Prop := s.Clean c ∧ ∃ out, s.exec c = some (t, out)

theorem run_inv (hrun : Trace CleanStep init cs s) : Inv s := by
  induction hrun with
  | nil => exact init_inv
  | snoc _ hstep ih =>
    obtain ⟨hclean, out, hc⟩ := hstep
    exact (ih.step hclean hc).1

/-- In every run of such steps: an address that is returned for a hostname, or is in the cache under it, was answered
to a query for it, and a call for a name that cannot be encoded changes nothing and returns no address. -/
theorem answered_runs (hrun : Trace CleanStep init cs s) (hclean : s.Clean c) (hc : s.exec c = some (t, out)) :
    Sound s c t out ∧ ∀ i, (t.cache i).valid = true → (t.cache i).ip ≠ 0 → Answered t.log (t.cache i).name (t.cache i).ip := by
  obtain ⟨hinv, hsound⟩ := (run_inv hrun).step hclean hc
  exact ⟨hsound, fun i hv => (hinv.cache i hv).2⟩

def firstResponse : DnsCall :=
  .response (fun a => [0x12, 0x34, 0x81, 0x80, 0, 0, 0, 1, 0, 0, 0, 0, 0, 0, 1, 0, 1, 0, 0, 0, 60, 0, 4, 10, 0, 2, 9].getD a 0) 27

theorem asked_and_answered : ∃ s t out, Trace CleanStep init [.resolve 0 (.ofString "a") 0 0, firstResponse] s ∧
    s.exec (.iterate 0 0 0) = some (t, out) ∧ out = some (.ofString "a", 0x0902000A) ∧ Sound s (.iterate 0 0 0) t out ∧
    ∀ i, (t.cache i).valid = true → (t.cache i).ip ≠ 0 → Answered t.log (t.cache i).name (t.cache i).ip := by
  have hev : ∃ s ∈ [DnsCall.resolve 0 (.ofString "a") 0 0, firstResponse].foldlM
      (fun s c => if Clean s c then (exec s c).map Prod.fst else none) init,
      Clean s (.iterate 0 0 0) ∧ ∃ r ∈ s.exec (.iterate 0 0 0), r.2 = some (.ofString "a", 0x0902000A) := by decide +kernel
  obtain ⟨s, hs, hclean, ⟨t, out⟩, hc, hout⟩ := hev
  have hrun : Trace CleanStep init [.resolve 0 (.ofString "a") 0 0, firstResponse] s := by
    apply (trace_of_checked hs).mono
    rintro s c t ⟨hclean, hc⟩
    obtain ⟨⟨t', out⟩, hc, ht⟩ := map_eq_some_iff.mp hc
    exact ⟨hclean, out, ht ▸ hc⟩
  exact ⟨s, t, out, hrun, hc, hout, answered_runs hrun hclean hc⟩

/-- A name that is refused gets the address of the name before. -/
theorem refused_name_gets_address : ∃ s t, Trace (fun s c t => ∃ out, exec s c = some (t, out)) init
    [.resolve 0 (.ofString "a") 0 0, firstResponse, .iterate 0 0 0, .resolve 0 (.ofString ".") 0 0] s ∧
    s.exec (.iterate 0 0 0) = some (t, some (.ofString ".", 0x0902000A)) ∧ ¬ DnsName.Encodable (.ofString ".") ∧
    ¬ Answered t.log (.ofString ".") 0x0902000A ∧ ¬ Sound s (.iterate 0 0 0) t (some (.ofString ".", 0x0902000A)) := by
  have hev : ∃ s ∈ [DnsCall.resolve 0 (.ofString "a") 0 0, firstResponse, .iterate 0 0 0, .resolve 0 (.ofString ".") 0 0].foldlM
      (fun s c => (exec s c).map Prod.fst) init,
      ∃ r ∈ s.exec (.iterate 0 0 0), r.2 = some (.ofString ".", 0x0902000A) ∧
        r.1.log = [.query 0x1234 (.ofString "a"), .response 0x1234 0x0902000A] := by decide +kernel
  obtain ⟨s, hs, ⟨t, out⟩, hc, hout, hlog⟩ := hev
  have hnot : ¬ Answered t.log (.ofString ".") 0x0902000A := by
    rintro ⟨l₁, l₂, l₃, id, hl, -⟩
    have hmem : DnsRecord.query id (.ofString ".") ∈ t.log := by
      rw [hl]
      simp
    rw [hlog] at hmem
    rcases List.mem_cons.mp hmem with hfirst | hsecond
    · exact absurd (DnsRecord.query.inj hfirst).2 (by decide +kernel)
    · cases List.mem_singleton.mp hsecond
  refine ⟨s, t, ?_, ?_, by decide +kernel, hnot, fun hsound => hnot (hsound.answered _ rfl (by decide))⟩
  · apply (trace_of_foldlM hs).mono
    intro s c t hc
    obtain ⟨⟨t', out⟩, hc, ht⟩ := map_eq_some_iff.mp hc
    exact ⟨out, ht ▸ hc⟩
  · rw [hc]
    exact congrArg (fun o => some (t, o)) hout

end DnsRun
end RetroOs.Net
