import RetroOs.Lib.CString
import RetroOs.Lib.Runs

/-! The callbacks that collect an HTTP response, and the look-up of a header; the parser calls them in the order of the
response, the name of a header before its value. -/
namespace RetroOs.Net
open Lib List

structure HttpHeader where
  name : CString
  value : CString
  deriving DecidableEq

structure HttpResponse where
  statusCode : Int
  statusText : CString
  headers : List HttpHeader
  contentLength : UInt32
  chunked : Bool

/-- What the callbacks work on. `tempBody` is what is collected of the body, where `kmalloc` gave a buffer. -/
structure HttpContext where
  resp : HttpResponse
  lastHeader : CString
  tempBody : Option (List UInt8)

namespace Http

def maxHeaders : Nat := 32
def maxName : Nat := 63
def maxValue : Nat := 255
def tempBodyCap : Nat := 128 * 1024

def contentLengthName : CString := .ofString "Content-Length"
def transferEncodingName : CString := .ofString "Transfer-Encoding"
def chunkedValue : CString := .ofString "chunked"

def lower (b : UInt8) : UInt8 := if 0x41 ≤ b ∧ b ≤ 0x5A then b + 32 else b

def atoiLoop : CString → UInt32 → UInt32
  | [], result => result
  | c :: s, result => if 0x30 ≤ c.val ∧ c.val ≤ 0x39 then atoiLoop s (result * 10 + (c.val - 0x30).toUInt32) else result

/-- `http_atoi`, as the sum wraps. -/
def atoi (s : CString) : UInt32 := atoiLoop s 0

def strncasecmp : Nat → CString → CString → Int
  | n + 1, c :: s, d :: t =>
    if lower c.val = lower d.val then strncasecmp n s t else (lower c.val).toInt8.toInt - (lower d.val).toInt8.toInt
  | _, _, _ => 0

def strstr (s t : CString) : Bool := s.tails.any fun r => t.isPrefixOf r

end Http

namespace HttpContext
open Http
variable (ctx : HttpContext)

def onHeaderField (name : CString) : HttpContext := { ctx with lastHeader := name.take maxName }

def onHeaderValue (value : CString) : HttpContext :=
  let r := ctx.resp
  if r.headers.length < maxHeaders then
    let h : HttpHeader := { name := ctx.lastHeader, value := value.take maxValue }
    { ctx with resp := { r with
        headers := r.headers ++ [h]
        contentLength := if strncasecmp 14 h.name contentLengthName = 0 then atoi h.value else r.contentLength
        chunked := r.chunked || strncasecmp 17 h.name transferEncodingName = 0 && strstr h.value chunkedValue } }
  else ctx

def onBody (bytes : List UInt8) : HttpContext :=
  match ctx.tempBody with
  | some body => if body.length + bytes.length < tempBodyCap then { ctx with tempBody := some (body ++ bytes) } else ctx
  | none => ctx

def onStatus (code : Int) (text : CString) : HttpContext :=
  { ctx with resp := { ctx.resp with statusCode := code, statusText := text.take maxName } }

/-- What `http_parse_response` starts with; `buffer` says whether there is one for the body. -/
def init (buffer : Bool) : HttpContext where
  resp := { statusCode := 0, statusText := [], headers := [], contentLength := 0, chunked := false }
  lastHeader := []
  tempBody := if buffer then some [] else none

/-- The bytes that are collected of the body. -/
def body : List UInt8 := ctx.tempBody.getD []

end HttpContext

namespace HttpResponse
open Http

def getHeader (r : HttpResponse) (name : CString) : Option CString :=
  (r.headers.find? fun h => strncasecmp name.length h.name name = 0).map HttpHeader.value

end HttpResponse

/-- The parts of a response, as the parser delivers them. -/
inductive HttpEvent where
  | status (code : Int) (text : CString)
  | header (h : HttpHeader)
  | body (bytes : List UInt8)

/-- The callbacks with what was delivered to them. -/
structure HttpRun extends HttpContext where
  given : List HttpHeader
  delivered : List UInt8

namespace HttpRun
open Http

def exec (s : HttpRun) : HttpEvent → HttpRun
  | .status code text => { s with toHttpContext := s.onStatus code text }
  | .header h => { s with toHttpContext := (s.onHeaderField h.name).onHeaderValue h.value, given := s.given ++ [h] }
  | .body bytes => { s with toHttpContext := s.onBody bytes, delivered := s.delivered ++ bytes }

def boot (buffer : Bool) : HttpRun := ⟨.init buffer, [], []⟩

end HttpRun

namespace Http
variable {α : Type} {p : α → Prop} {l : List α} {a : α} {n : Nat} {s t : CString}

/-- A name without the case of its letters. -/
def fold (s : CString) : List UInt8 := s.map fun c => lower c.val

def SameName (s t : CString) : Prop := fold s = fold t

instance (s t : CString) : Decidable (SameName s t) := inferInstanceAs (Decidable (_ = _))

/-- One of the names begins with the other. -/
def Agree (s t : CString) : Prop := fold s <+: fold t ∨ fold t <+: fold s

/-- The first element with a property. -/
def First (p : α → Prop) (l : List α) (a : α) : Prop := ∃ front rest, l = front ++ a :: rest ∧ p a ∧ ∀ b ∈ front, ¬ p b

theorem find_iff_first {q : α → Bool} (hq : ∀ x, q x = true ↔ p x) : l.find? q = some a ↔ First p l a := by
  rw [find?_eq_some_iff_append, First]
  constructor
  · rintro ⟨ha, front, rest, hl, hfront⟩
    exact ⟨front, rest, hl, (hq a).mp ha, fun b hb hp => by simpa [(hq b).mpr hp] using hfront b hb⟩
  · rintro ⟨front, rest, hl, ha, hfront⟩
    exact ⟨(hq a).mpr ha, front, rest, hl, fun b hb => by simpa using fun h => hfront b hb ((hq b).mp h)⟩

theorem find_none_iff {q : α → Bool} (hq : ∀ x, q x = true ↔ p x) : l.find? q = none ↔ ∀ b ∈ l, ¬ p b := by
  rw [find?_eq_none]
  exact forall₂_congr fun b _ => not_congr (hq b)

private theorem agree_cons {c d : CChar} (s t : CString) : Agree (c :: s) (d :: t) ↔ lower c.val = lower d.val ∧ Agree s t := by
  rw [Agree, Agree, fold, fold, map_cons, map_cons, cons_prefix_cons, cons_prefix_cons]
  constructor
  · rintro (⟨hc, h⟩ | ⟨hc, h⟩)
    · exact ⟨hc, .inl h⟩
    · exact ⟨hc.symm, .inr h⟩
  · rintro ⟨hc, h | h⟩
    · exact .inl ⟨hc, h⟩
    · exact .inr ⟨hc.symm, h⟩

private theorem strncasecmp_iff (h : t.length ≤ n) : strncasecmp n s t = 0 ↔ Agree s t := by
  induction t generalizing n s with
  | nil =>
    refine iff_of_true ?_ (.inr nil_prefix)
    cases n with
    | zero => rfl
    | succ n => cases s <;> rfl
  | cons d t ih =>
    obtain ⟨n, rfl⟩ : ∃ k, n = k + 1 := Nat.exists_eq_add_one.mpr (Nat.lt_of_lt_of_le (Nat.succ_pos _) h)
    cases s with
    | nil => exact iff_of_true rfl (.inl nil_prefix)
    | cons c s =>
      rw [agree_cons, strncasecmp]
      by_cases hc : lower c.val = lower d.val
      · rw [if_pos hc, ih (Nat.le_of_succ_le_succ h)]
        exact (and_iff_right hc).symm
      · rw [if_neg hc]
        refine iff_of_false (fun h0 => hc ?_) fun h => hc h.1
        exact congrArg Int8.toUInt8 (Int8.toInt_inj.mp (Int.sub_eq_zero.mp h0))

end Http

namespace HttpRun
open Http
variable {s : HttpRun} {e : HttpEvent} {bytes : List UInt8}

/-- The look-up gives the value of the first header with this name, or nothing if there is none. -/
def GetsHeader (s : HttpRun) (name : CString) : Prop :=
  s.resp.getHeader name = (s.given.find? fun h => SameName h.name name).map HttpHeader.value

def KeepsLength (s : HttpRun) (e : HttpEvent) : Prop :=
  (s.exec e).resp.contentLength ≠ s.resp.contentLength → ∃ h, e = .header h ∧ SameName h.name contentLengthName

/-- What is collected is what came first. -/
def Collected (s : HttpRun) : Prop := s.body <+: s.delivered

def Distinguishes (headers : List HttpHeader) (name : CString) : Prop :=
  (∀ h ∈ headers, ¬ SameName h.name name) ∧ (∀ h ∈ headers.take maxHeaders, ¬ Agree (h.name.take maxName) name) ∨
    ∃ h h', First (fun h => SameName h.name name) headers h ∧
      First (fun h => Agree (h.name.take maxName) name) (headers.take maxHeaders) h' ∧ h'.value.take maxValue = h.value

def LeavesLength (s : HttpRun) : HttpEvent → Prop
  | .header h => ¬ SameName h.name contentLengthName → s.resp.headers.length < maxHeaders →
      Agree (h.name.take maxName) contentLengthName → atoi (h.value.take maxValue) = s.resp.contentLength
  | _ => True

/-- A chunk that fits goes on with what is missing. -/
def Continues (s : HttpRun) : HttpEvent → Prop
  | .body bytes => ∀ body, s.tempBody = some body → body.length + bytes.length < tempBodyCap →
      bytes <+: s.delivered.drop body.length ++ bytes
  | _ => True

def cut (h : HttpHeader) : HttpHeader := { name := h.name.take maxName, value := h.value.take maxValue }

private theorem exec_headers (s : HttpRun) (h : HttpHeader) : (s.exec (.header h)).resp.headers =
    if s.resp.headers.length < maxHeaders then s.resp.headers ++ [cut h] else s.resp.headers := by
  rw [exec, HttpContext.onHeaderValue]
  split
  · next hroom => exact (if_pos hroom).symm
  · next hfull => exact (if_neg hfull).symm

private theorem onBody_resp (ctx : HttpContext) (bytes : List UInt8) : (ctx.onBody bytes).resp = ctx.resp := by
  rw [HttpContext.onBody]
  split
  · split <;> rfl
  · rfl

private theorem exec_length (s : HttpRun) (h : HttpHeader) : (s.exec (.header h)).resp.contentLength =
    if s.resp.headers.length < maxHeaders ∧ strncasecmp 14 (h.name.take maxName) contentLengthName = 0 then
      atoi (h.value.take maxValue)
    else s.resp.contentLength := by
  rw [exec, HttpContext.onHeaderValue]
  split
  · next hroom =>
    by_cases hname : strncasecmp 14 (h.name.take maxName) contentLengthName = 0
    · rw [if_pos ⟨hroom, hname⟩]
      exact if_pos hname
    · rw [if_neg fun hh => hname hh.2]
      exact if_neg hname
  · next hfull => exact (if_neg fun hh => hfull hh.1).symm

private theorem run_headers (buffer : Bool) (es : List HttpEvent) : (es.foldl exec (boot buffer)).resp.headers =
    ((es.foldl exec (boot buffer)).given.take maxHeaders).map cut := by
  induction es using reverseRecOn with
  | nil => rfl
  | append_singleton es e ih =>
    rw [foldl_append, foldl_cons, foldl_nil]
    generalize es.foldl exec (boot buffer) = s at ih
    cases e with
    | status code text => exact ih
    | body bytes =>
      have hsame : (s.exec (.body bytes)).resp = s.resp := onBody_resp _ _
      rw [hsame]
      exact ih
    | header h =>
      have hgiven : (s.exec (.header h)).given = s.given ++ [h] := rfl
      rw [exec_headers, hgiven, ih, length_map, length_take]
      by_cases hroom : s.given.length < maxHeaders
      · rw [if_pos (by omega), take_of_length_le hroom.le, take_of_length_le (by rw [length_append]; exact hroom),
          map_append, map_singleton]
      · rw [if_neg (by omega), take_append_of_le_length (Nat.not_lt.mp hroom)]

private theorem getHeader_eq (buffer : Bool) (es : List HttpEvent) (name : CString) :
    let s := es.foldl exec (boot buffer)
    s.resp.getHeader name =
      ((s.given.take maxHeaders).find? fun h => strncasecmp name.length (h.name.take maxName) name = 0).map fun h =>
        h.value.take maxValue := by
  dsimp only
  rw [HttpResponse.getHeader, run_headers, find?_map, Option.map_map]
  rfl

private theorem getsHeader_iff (buffer : Bool) (es : List HttpEvent) (name : CString) :
    (es.foldl exec (boot buffer)).GetsHeader name ↔ Distinguishes (es.foldl exec (boot buffer)).given name := by
  rw [GetsHeader, getHeader_eq, Distinguishes]
  generalize (es.foldl exec (boot buffer)).given = headers
  have hsame : ∀ h : HttpHeader, decide (SameName h.name name) = true ↔ SameName h.name name := fun _ => decide_eq_true_iff
  have hagree : ∀ h : HttpHeader,
      decide (strncasecmp name.length (h.name.take maxName) name = 0) = true ↔ Agree (h.name.take maxName) name :=
    fun _ => decide_eq_true_iff.trans (strncasecmp_iff (Nat.le_refl _))
  constructor
  · intro heq
    cases hfind : headers.find? fun h => SameName h.name name with
    | none =>
      rw [hfind, Option.map_none] at heq
      exact .inl ⟨(find_none_iff hsame).mp hfind, (find_none_iff hagree).mp (Option.map_eq_none_iff.mp heq)⟩
    | some h =>
      rw [hfind, Option.map_some] at heq
      obtain ⟨h', hfind', hvalue⟩ := Option.map_eq_some_iff.mp heq
      exact .inr ⟨h, h', (find_iff_first hsame).mp hfind, (find_iff_first hagree).mp hfind', hvalue⟩
  · rintro (⟨hno, hno'⟩ | ⟨h, h', hfirst, hfirst', hvalue⟩)
    · rw [(find_none_iff hsame).mpr hno, (find_none_iff hagree).mpr hno']
      rfl
    · rw [(find_iff_first hsame).mpr hfirst, (find_iff_first hagree).mpr hfirst', Option.map_some, Option.map_some, hvalue]

private theorem keepsLength_iff (s : HttpRun) (e : HttpEvent) : s.KeepsLength e ↔ s.LeavesLength e := by
  cases e with
  | status code text => exact iff_of_true (fun h => absurd rfl h) trivial
  | body bytes =>
    refine iff_of_true (fun h => absurd ?_ h) trivial
    have hsame : (s.exec (.body bytes)).resp = s.resp := onBody_resp _ _
    rw [hsame]
  | header h =>
    have hname : strncasecmp 14 (h.name.take maxName) contentLengthName = 0 ↔ Agree (h.name.take maxName) contentLengthName :=
      strncasecmp_iff (by decide)
    rw [KeepsLength, exec_length, LeavesLength]
    constructor
    · intro hkeep hother hroom hagree
      by_contra hne
      rw [if_pos ⟨hroom, hname.mpr hagree⟩] at hkeep
      obtain ⟨h', hh', hname⟩ := hkeep hne
      cases hh'
      exact hother hname
    · intro hleaves hne
      by_cases hset : s.resp.headers.length < maxHeaders ∧ strncasecmp 14 (h.name.take maxName) contentLengthName = 0
      · rw [if_pos hset] at hne
        exact ⟨h, rfl, by_contra fun hother => hne (hleaves hother hset.1 (hname.mp hset.2))⟩
      · rw [if_neg hset] at hne
        exact absurd rfl hne

private theorem body_skipped (h : ∀ body, s.tempBody = some body → ¬ body.length + bytes.length < tempBodyCap) :
    s.onBody bytes = s.toHttpContext := by
  rw [HttpContext.onBody]
  cases hbody : s.tempBody with
  | none => rfl
  | some body => exact if_neg (h body hbody)

private theorem collected_step (h : s.Collected) : (s.exec e).Collected ↔ s.Continues e := by
  cases e with
  | status code text => exact iff_of_true h trivial
  | header hd =>
    refine iff_of_true ?_ trivial
    have hsame : (s.exec (.header hd)).body = s.body := by
      rw [exec, HttpContext.onHeaderValue]
      split <;> rfl
    rw [Collected, hsame]
    exact h
  | body bytes =>
    have hdelivered : (s.exec (.body bytes)).delivered = s.delivered ++ bytes := rfl
    by_cases hfits : ∃ body, s.tempBody = some body ∧ body.length + bytes.length < tempBodyCap
    · obtain ⟨body, hbody, hroom⟩ := hfits
      have hafter : (s.exec (.body bytes)).body = body ++ bytes := by
        rw [exec, HttpContext.onBody, hbody]
        exact congrArg HttpContext.body (if_pos hroom)
      have hbefore : s.body = body := by rw [HttpContext.body, hbody, Option.getD_some]
      obtain ⟨missing, hmissing⟩ : body <+: s.delivered := hbefore ▸ h
      rw [Collected, hafter, hdelivered, ← hmissing, append_assoc, prefix_append_right_inj, Continues]
      constructor
      · intro hgo body' hbody' _
        cases hbody.symm.trans hbody'
        rw [← hmissing, drop_left]
        exact hgo
      · intro hgo
        have hnext := hgo body hbody hroom
        rwa [← hmissing, drop_left] at hnext
    · have hskip : ∀ body, s.tempBody = some body → ¬ body.length + bytes.length < tempBodyCap :=
        fun body hbody hroom => hfits ⟨body, hbody, hroom⟩
      refine iff_of_true ?_ fun body hbody hroom => absurd hroom (hskip body hbody)
      have hsame : (s.exec (.body bytes)).body = s.body := congrArg HttpContext.body (body_skipped hskip)
      rw [Collected, hsame, hdelivered]
      exact h.trans (prefix_append ..)

/-- Whatever a response delivers: exactly then a look-up is right about its headers, only a Content-Length header sets the
length, and what is collected of the body is a prefix of it in each state. -/
theorem response_iff (buffer : Bool) (es : List HttpEvent) (name : CString) :
    ((es.foldl exec (boot buffer)).GetsHeader name ↔ Distinguishes (es.foldl exec (boot buffer)).given name) ∧
      (Along exec KeepsLength (boot buffer) es ↔ Along exec LeavesLength (boot buffer) es) ∧
        (Along exec (fun s e => (s.exec e).Collected) (boot buffer) es ↔ Along exec Continues (boot buffer) es) :=
  ⟨getsHeader_iff buffer es name, Along.congr keepsLength_iff,
    Along.keeps_iff (fun _ _ => collected_step) (by cases buffer <;> exact nil_prefix)⟩

/-- A header with a name of one letter, in front of the one that is looked for. -/
theorem getHeader_takes_a_prefix :
    let es : List HttpEvent := [.header ⟨.ofString "L", .ofString "/wrong"⟩, .header ⟨.ofString "Location", .ofString "/right"⟩]
    ¬ (es.foldl exec (boot true)).GetsHeader (.ofString "Location") := by
  dsimp only
  rw [GetsHeader]
  decide +kernel

end HttpRun
end RetroOs.Net
