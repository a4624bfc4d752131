import PJS.Http.IpAddr

/-! The address a request is rate limited by. Behind a trusted proxy it comes from the header that
proxies append to, read from the right up to the first address that is not a proxy's own. -/
namespace PJS

/-- The bytes a header value may have. -/
def LegalByte (b : UInt8) : Prop := 32 ≤ b ∧ b ≠ 127 ∨ b = 9

instance (b : UInt8) : Decidable (LegalByte b) := inferInstanceAs (Decidable (_ ∨ _))

structure HeaderValue where
  bytes : List UInt8
  legal : ∀ b ∈ bytes, LegalByte b

def isVisibleAscii (b : UInt8) : Bool := 32 ≤ b && b < 127 || b == 9

namespace HeaderValue

/-- One character per byte. -/
def chars (value : HeaderValue) : List Char := value.bytes.map fun b => Char.ofNat b.toNat

/-- The text of a value that is visible ASCII throughout. -/
def toStr (value : HeaderValue) : Option (List Char) :=
  if value.bytes.all isVisibleAscii then some value.chars else none

end HeaderValue

/-- The values of every header, in the order in which they came. -/
def HeaderMap := String → List HeaderValue

def HeaderMap.getAll (headers : HeaderMap) (name : String) : List HeaderValue := headers name

def HeaderMap.get (headers : HeaderMap) (name : String) : Option HeaderValue :=
  (headers.getAll name).head?

/-- A request: the peer of its connection, where the server knows it, and its headers. -/
structure Request where
  connectInfo : Option IpAddr
  headers : HeaderMap

structure TrustedProxyConfig where
  trustedProxies : List IpAddr

namespace TrustedProxyConfig

/-- Whether a canonical address is in the allowlist. -/
def contains (config : TrustedProxyConfig) (ip : IpAddr) : Bool :=
  config.trustedProxies.any fun p => p.toCanonical = ip

end TrustedProxyConfig

/-- `str::trim`, on seven-bit text. -/
def trim (s : List Char) : List Char :=
  ((s.dropWhile Char.isWhitespace).reverse.dropWhile Char.isWhitespace).reverse

section Extraction
variable (trustedProxies : TrustedProxyConfig)

/-- The walk over the entries, last entry first. It stops at the first entry that is no address. -/
def walkForwarded : List (List Char) → Option IpAddr
  | [] => none
  | entry :: rest =>
    match IpAddr.parse (trim entry) with
    | none => none
    | some ip =>
      if !trustedProxies.contains ip.toCanonical then some ip.toCanonical else walkForwarded rest

/-- The entries of the header lines that have a text. -/
def forwardedEntries (lines : List HeaderValue) : List (List Char) :=
  (lines.filterMap HeaderValue.toStr).flatMap fun s => s.splitOn ','

/-- Parse the client address from `X-Forwarded-For` or `X-Real-IP`. -/
def extractForwardedIp (headers : HeaderMap) : Option IpAddr :=
  match walkForwarded trustedProxies
      (forwardedEntries (headers.getAll "x-forwarded-for")).reverse with
  | some ip => some ip
  | none => do
    let value ← headers.get "x-real-ip"
    let s ← value.toStr
    let ip ← IpAddr.parse (trim s)
    return ip.toCanonical

end Extraction

/-- The client address used as the rate-limit key. -/
def extractClientIp (request : Request) (trustedProxies : Option TrustedProxyConfig) : IpAddr :=
  match request.connectInfo with
  | none => .v4 127 0 0 1
  | some addr =>
    let peer := addr.toCanonical
    match trustedProxies with
    | none => peer
    | some proxies =>
      if proxies.contains peer then (extractForwardedIp proxies request.headers).getD peer
      else peer

section Walk

/-- The canonical address an element of the list spells, if it does. -/
def address (element : List Char) : Option IpAddr :=
  (IpAddr.parse (trim element)).map IpAddr.toCanonical

variable (trusted : TrustedProxyConfig)

/-- An element that spells an address of the allowlist. -/
def Trusted (element : List Char) : Prop :=
  ∃ ip, address element = some ip ∧ trusted.contains ip = true

/-- In the list `es` the address `ip` stands outside the allowlist, and right of it stand
addresses of the allowlist only. -/
def Rightmost (es : List (List Char)) (ip : IpAddr) : Prop :=
  ∃ left e right, es = left ++ e :: right ∧ address e = some ip ∧ trusted.contains ip = false ∧
    ∀ x ∈ right, Trusted trusted x

variable {trusted}

theorem Rightmost.append {es : List (List Char)} {ip : IpAddr} (h : Rightmost trusted es ip)
    {right : List (List Char)} (hr : ∀ x ∈ right, Trusted trusted x) :
    Rightmost trusted (es ++ right) ip := by
  obtain ⟨left, e, mid, rfl, haddr, hout, hmid⟩ := h
  refine ⟨left, e, mid ++ right, by simp, haddr, hout, fun x hx => ?_⟩
  rcases List.mem_append.mp hx with hx | hx
  · exact hmid x hx
  · exact hr x hx

/-- What stands right of the address is decided: either the address stands there, or everything
there is trusted and the address stands left of it. -/
theorem rightmost_append_iff {left right : List (List Char)} {ip : IpAddr} :
    Rightmost trusted (left ++ right) ip ↔ Rightmost trusted right ip ∨
      Rightmost trusted left ip ∧ ∀ x ∈ right, Trusted trusted x := by
  constructor
  · rintro ⟨l, e, r, hsplit, haddr, hout, hr⟩
    rcases List.append_eq_append_iff.mp hsplit with ⟨mid, rfl, hmid⟩ | ⟨mid, hleft, hright⟩
    · exact Or.inl ⟨mid, e, r, hmid, haddr, hout, hr⟩
    · cases mid with
      | nil => exact Or.inl ⟨[], e, r, by simpa using hright.symm, haddr, hout, hr⟩
      | cons e' mid =>
        obtain ⟨rfl, rfl⟩ : e = e' ∧ r = mid ++ right := by simpa using hright
        refine Or.inr ⟨⟨l, e, mid, hleft, haddr, hout, fun x hx => hr x (by simp [hx])⟩, ?_⟩
        exact fun x hx => hr x (by simp [hx])
  · rintro (⟨l, e, r, rfl, haddr, hout, hr⟩ | ⟨h, hr⟩)
    · exact ⟨left ++ l, e, r, by simp, haddr, hout, hr⟩
    · exact h.append hr

theorem trusted_iff {element : List Char} : Trusted trusted element ↔
    ∃ ip, IpAddr.parse (trim element) = some ip ∧ trusted.contains ip.toCanonical = true := by
  unfold Trusted address
  constructor
  · rintro ⟨ip, haddr, hin⟩
    obtain ⟨ip', hparse, rfl⟩ := Option.map_eq_some_iff.mp haddr
    exact ⟨ip', hparse, hin⟩
  · rintro ⟨ip, hparse, hin⟩
    exact ⟨ip.toCanonical, by rw [hparse, Option.map_some], hin⟩

/-- The walk finds the rightmost address outside the allowlist, if nothing malformed stands right
of it. -/
theorem walkForwarded_reverse_eq_some_iff {es : List (List Char)} {ip : IpAddr} :
    walkForwarded trusted es.reverse = some ip ↔ Rightmost trusted es ip := by
  induction es using List.reverseRecOn with
  | nil =>
    constructor
    · intro h
      cases h
    · rintro ⟨left, e, right, hsplit, -⟩
      simp at hsplit
  | append_singleton es e ih =>
    rw [List.reverse_append, List.reverse_singleton, List.singleton_append, walkForwarded,
      rightmost_append_iff]
    have hlast : Rightmost trusted [e] ip ↔
        address e = some ip ∧ trusted.contains ip = false := by
      constructor
      · rintro ⟨left, e', right, hsplit, haddr, hout, -⟩
        obtain ⟨rfl, rfl, rfl⟩ : left = [] ∧ e = e' ∧ right = [] := by
          cases left <;> simp_all
        exact ⟨haddr, hout⟩
      · rintro ⟨haddr, hout⟩
        exact ⟨[], e, [], rfl, haddr, hout, by simp⟩
    rw [hlast, List.forall_mem_singleton, trusted_iff, ← ih]
    cases hparse : IpAddr.parse (trim e) with
    | none => simp [address, hparse]
    | some ip' =>
      cases hin : trusted.contains ip'.toCanonical with
      | true =>
        simp only [address, hparse, hin, Option.map_some, Option.some.injEq, Bool.not_true,
          Bool.false_eq_true, if_false, exists_eq_left', and_true]
        constructor
        · exact Or.inr
        · rintro (⟨rfl, hout⟩ | h)
          · rw [hin] at hout
            cases hout
          · exact h
      | false =>
        simp only [address, hparse, hin, Option.map_some, Option.some.injEq, Bool.not_false,
          if_true, exists_eq_left', Bool.false_eq_true, and_false, or_false]
        constructor
        · rintro rfl
          exact ⟨rfl, hin⟩
        · exact fun h => h.1

end Walk

section Elements

/-- The elements of the comma-joined list of all lines, in line order. -/
def elements (lines : List HeaderValue) : List (List Char) :=
  lines.flatMap fun value => value.chars.splitOn ','

theorem elements_append (lines lines' : List HeaderValue) :
    elements (lines ++ lines') = elements lines ++ elements lines' := by
  rw [elements, List.flatMap_append]
  rfl

theorem forwardedEntries_append (lines lines' : List HeaderValue) :
    forwardedEntries (lines ++ lines') = forwardedEntries lines ++ forwardedEntries lines' := by
  simp only [forwardedEntries, List.filterMap_append, List.flatMap_append]

/-- A line with a text contributes its elements, another line none. -/
theorem forwardedEntries_cons (value : HeaderValue) (lines : List HeaderValue) :
    forwardedEntries (value :: lines) =
      (if value.toStr = none then [] else value.chars.splitOn ',') ++ forwardedEntries lines := by
  have htext : ∀ cs, value.toStr = some cs → cs = value.chars := by
    intro cs hcs
    unfold HeaderValue.toStr at hcs
    split_ifs at hcs
    exact (Option.some.inj hcs).symm
  unfold forwardedEntries
  cases hv : value.toStr with
  | none => rw [List.filterMap_cons_none hv, if_pos rfl, List.nil_append]
  | some cs =>
    rw [List.filterMap_cons_some hv, if_neg (by simp), List.flatMap_cons, htext cs hv]

theorem elements_eq_forwardedEntries {lines : List HeaderValue}
    (h : ∀ value ∈ lines, value.toStr ≠ none) : elements lines = forwardedEntries lines := by
  induction lines with
  | nil => rfl
  | cons value lines ih =>
    rw [forwardedEntries_cons, if_neg (h value (by simp)), ← ih fun v hv => h v (by simp [hv])]
    rfl

theorem exists_mem_splitOn {sep c : Char} {cs : List Char} (hc : c ∈ cs) (hne : c ≠ sep) :
    ∃ e ∈ cs.splitOn sep, c ∈ e := by
  induction cs with
  | nil => cases hc
  | cons d cs ih =>
    rw [List.splitOn_cons_eq_if_modifyHead]
    rcases List.mem_cons.mp hc with rfl | hc
    · rw [if_neg (by simpa using hne)]
      cases hs : cs.splitOn sep with
      | nil => exact absurd hs (List.splitOn_ne_nil _ _)
      | cons e es => exact ⟨c :: e, by simp, by simp⟩
    · obtain ⟨e, he, hce⟩ := ih hc
      split_ifs
      · exact ⟨e, by simp [he], hce⟩
      · cases hs : cs.splitOn sep with
        | nil => exact absurd hs (List.splitOn_ne_nil _ _)
        | cons e' es =>
          rw [hs] at he
          rcases List.mem_cons.mp he with rfl | he
          · exact ⟨d :: e, by simp, by simp [hce]⟩
          · exact ⟨e, by simp [he], hce⟩

theorem mem_trim {c : Char} {s : List Char} (hc : c ∈ s) (hw : c.isWhitespace = false) :
    c ∈ trim s := by
  have hdrop : ∀ {l : List Char}, c ∈ l → c ∈ l.dropWhile Char.isWhitespace := by
    intro l hl
    rw [← List.takeWhile_append_dropWhile (p := Char.isWhitespace) (l := l)] at hl
    rcases List.mem_append.mp hl with hl | hl
    · rw [List.mem_takeWhile_imp hl] at hw
      cases hw
    · exact hl
  rw [trim, List.mem_reverse]
  exact hdrop (List.mem_reverse.mpr (hdrop hc))

/-- A line without a text has an element that is no address. -/
theorem exists_address_eq_none {value : HeaderValue} (h : value.toStr = none) :
    ∃ e ∈ value.chars.splitOn ',', address e = none := by
  have hbad : ∃ b ∈ value.bytes, isVisibleAscii b = false := by
    by_contra hall
    push Not at hall
    have htext : value.bytes.all isVisibleAscii = true :=
      List.all_eq_true.mpr fun b hb => by simpa using hall b hb
    rw [HeaderValue.toStr, if_pos htext] at h
    cases h
  obtain ⟨b, hb, hvisible⟩ := hbad
  have hlarge : 128 ≤ b.toNat := by
    have hlegal := value.legal b hb
    simp only [LegalByte, isVisibleAscii, ← UInt8.toNat_inj, UInt8.le_iff_toNat_le,
      UInt8.lt_iff_toNat_lt, Bool.or_eq_false_iff, Bool.and_eq_false_iff, decide_eq_false_iff_not,
      beq_eq_false_iff_ne, ne_eq] at hlegal hvisible
    simp at hlegal hvisible
    omega
  have hnat : (Char.ofNat b.toNat).toNat = b.toNat := by
    have hall : ∀ n < 256, (Char.ofNat n).toNat = n := by decide +kernel
    exact hall b.toNat b.toNat_lt
  have hne : Char.ofNat b.toNat ≠ ',' := by
    intro he
    rw [he] at hnat
    simp at hnat
    omega
  have hwhite : (Char.ofNat b.toNat).isWhitespace = false := by
    by_contra hw
    rw [Bool.not_eq_false, Char.isWhitespace] at hw
    simp only [Bool.or_eq_true, decide_eq_true_eq] at hw
    rcases hw with ((hw | hw) | hw) | hw <;> rw [hw] at hnat <;> simp at hnat <;> omega
  obtain ⟨e, he, hce⟩ := @exists_mem_splitOn ',' _ _
    (List.mem_map_of_mem (f := fun b : UInt8 => Char.ofNat b.toNat) hb) hne
  refine ⟨e, he, ?_⟩
  rw [address, Option.map_eq_none_iff]
  by_contra hparse
  obtain ⟨ip, hip⟩ := Option.ne_none_iff_exists'.mp hparse
  have hascii := IpAddr.isAscii_of_parse hip _ (mem_trim hce hwhite)
  unfold IpAddr.IsAscii at hascii
  omega

end Elements

section Forgery
variable {trusted : TrustedProxyConfig}

/-- A key other than the peer's address is the rightmost address outside the allowlist, and
whoever writes only left of an element that is not trusted does not choose it. -/
def Unforged (trusted : TrustedProxyConfig) (es : List (List Char)) (peer key : IpAddr) : Prop :=
  key ≠ peer → Rightmost trusted es key ∧
    ∀ client appended, es = client ++ appended → (∃ x ∈ appended, ¬ Trusted trusted x) →
      ∃ x ∈ appended, address x = some key

/-- A line without a text stands right of the readable address that decides the walk, and the
elements from that line on do not come down to the same address. -/
def Overlooked (trusted : TrustedProxyConfig) (lines : List HeaderValue) : Prop :=
  ∃ before bad after ip, lines = before ++ bad :: after ∧ bad.toStr = none ∧
    Rightmost trusted (forwardedEntries before) ip ∧
    (∀ x ∈ forwardedEntries after, Trusted trusted x) ∧
    ¬ Rightmost trusted (elements (bad :: after)) ip

theorem unforged_of_rightmost {es : List (List Char)} {peer key : IpAddr}
    (h : Rightmost trusted es key) : Unforged trusted es peer key := by
  refine fun _ => ⟨h, ?_⟩
  rintro client appended rfl ⟨x, hx, hne⟩
  rcases rightmost_append_iff.mp h with ⟨left, e, right, rfl, haddr, -⟩ | ⟨-, hall⟩
  · exact ⟨e, by simp, haddr⟩
  · exact absurd (hall x hx) hne

/-- An unreadable line is untrusted, so nothing left of it decides. -/
theorem rightmost_of_unreadable {left after : List HeaderValue} {bad : HeaderValue} {ip : IpAddr}
    (hbad : bad.toStr = none) (h : Rightmost trusted (elements (left ++ bad :: after)) ip) :
    Rightmost trusted (elements (bad :: after)) ip := by
  rw [elements_append, rightmost_append_iff] at h
  rcases h with h | ⟨-, hall⟩
  · exact h
  · obtain ⟨e, he, hnone⟩ := exists_address_eq_none hbad
    obtain ⟨ip', hip, -⟩ := hall e (by simp [elements, he])
    rw [hnone] at hip
    cases hip

theorem rightmost_contains {es : List (List Char)} {ip : IpAddr} (h : Rightmost trusted es ip) :
    trusted.contains ip = false := by
  obtain ⟨-, -, -, -, -, hout, -⟩ := h
  exact hout

variable {headers : HeaderMap} {peer : IpAddr}

theorem extractClientIp_eq (hpeer : trusted.contains peer.toCanonical = true)
    (hreal : headers.getAll "x-real-ip" = []) :
    extractClientIp ⟨some peer, headers⟩ (some trusted) =
      (walkForwarded trusted (forwardedEntries (headers.getAll "x-forwarded-for")).reverse).getD
        peer.toCanonical := by
  simp only [extractClientIp, hpeer, if_true, extractForwardedIp, HeaderMap.get, hreal]
  cases walkForwarded trusted (forwardedEntries (headers.getAll "x-forwarded-for")).reverse <;> rfl

/-- The key that an overlooked line lets through. -/
theorem not_unforged_of_overlooked (hpeer : trusted.contains peer.toCanonical = true)
    (hreal : headers.getAll "x-real-ip" = [])
    (h : Overlooked trusted (headers.getAll "x-forwarded-for")) :
    ¬ Unforged trusted (elements (headers.getAll "x-forwarded-for")) peer.toCanonical
      (extractClientIp ⟨some peer, headers⟩ (some trusted)) := by
  obtain ⟨before, bad, after, ip, hlines, hbad, hright, hafter, hnot⟩ := h
  have hwalk : walkForwarded trusted
      (forwardedEntries (headers.getAll "x-forwarded-for")).reverse = some ip := by
    rw [walkForwarded_reverse_eq_some_iff, hlines, forwardedEntries_append, forwardedEntries_cons,
      if_pos hbad, List.nil_append]
    exact hright.append hafter
  rw [extractClientIp_eq hpeer hreal, hwalk, Option.getD_some, hlines]
  intro hunforged
  have hne : ip ≠ peer.toCanonical := by
    rintro rfl
    rw [rightmost_contains hright] at hpeer
    cases hpeer
  exact hnot (rightmost_of_unreadable hbad (hunforged hne).1)

/-- Where the readable entries decide and all elements do not, a line was overlooked. -/
theorem overlooked_of_rightmost {lines : List HeaderValue} {ip : IpAddr}
    (h : Rightmost trusted (forwardedEntries lines) ip)
    (hnot : ¬ Rightmost trusted (elements lines) ip) : Overlooked trusted lines := by
  induction lines with
  | nil => exact absurd h hnot
  | cons value lines ih =>
    have hsuffix : ∀ left right, value :: lines = left ++ right →
        ¬ Rightmost trusted (elements right) ip := by
      intro left right he hr
      rw [he, elements_append] at hnot
      exact hnot (rightmost_append_iff.mpr (Or.inl hr))
    rw [forwardedEntries_cons, rightmost_append_iff] at h
    rcases h with h | ⟨h, hall⟩
    · obtain ⟨before, bad, after, ip', rfl, hbad, hright, hafter, hn⟩ := ih h (hsuffix [value] _ rfl)
      refine ⟨value :: before, bad, after, ip', rfl, hbad, ?_, hafter, hn⟩
      rw [forwardedEntries_cons]
      exact rightmost_append_iff.mpr (Or.inl hright)
    · by_cases hread : ∀ v ∈ lines, v.toStr ≠ none
      · -- every line right of the address is readable, so nothing was overlooked
        refine absurd ?_ hnot
        rw [show value :: lines = [value] ++ lines from rfl, elements_append,
          elements_eq_forwardedEntries hread]
        refine Rightmost.append ?_ hall
        split_ifs at h with hvalue
        · obtain ⟨left, e, right, hsplit, -⟩ := h
          simp at hsplit
        · simpa [elements] using h
      · push Not at hread
        obtain ⟨bad, hmem, hbad⟩ := hread
        obtain ⟨mid, after, rfl⟩ := List.append_of_mem hmem
        rw [forwardedEntries_append, forwardedEntries_cons, if_pos hbad, List.nil_append] at hall
        refine ⟨value :: mid, bad, after, ip, rfl, hbad, ?_, fun x hx => hall x (by simp [hx]),
          hsuffix (value :: mid) _ rfl⟩
        rw [forwardedEntries_cons]
        exact h.append fun x hx => hall x (by simp [hx])

/-- Behind a trusted proxy the key is not forged, unless a header line that is not visible ASCII
is passed over. -/
theorem unforged_iff (hpeer : trusted.contains peer.toCanonical = true)
    (hreal : headers.getAll "x-real-ip" = []) :
    Unforged trusted (elements (headers.getAll "x-forwarded-for")) peer.toCanonical
        (extractClientIp ⟨some peer, headers⟩ (some trusted)) ↔
      ¬ Overlooked trusted (headers.getAll "x-forwarded-for") := by
  constructor
  · exact fun h ho => not_unforged_of_overlooked hpeer hreal ho h
  · intro hover
    rw [extractClientIp_eq hpeer hreal]
    cases hwalk : walkForwarded trusted
      (forwardedEntries (headers.getAll "x-forwarded-for")).reverse with
    | none => exact fun hne => absurd rfl hne
    | some ip =>
      rw [walkForwarded_reverse_eq_some_iff] at hwalk
      refine unforged_of_rightmost ?_
      rw [Option.getD_some]
      by_contra hnot
      exact hover (overlooked_of_rightmost hwalk hnot)

/-- A header line of seven-bit text after the given bytes. -/
def lineBytes (bytes : List UInt8) (text : String) : List UInt8 :=
  bytes ++ text.toList.map fun c => UInt8.ofNat c.toNat

/-- Two lines: an address, and a line that starts with a byte outside ASCII, to which the proxy
appended the address it saw. -/
def mixedHeaders : HeaderMap := fun name =>
  if name = "x-forwarded-for" then
    [⟨lineBytes [] "6.6.6.6", by decide +kernel⟩,
      ⟨lineBytes [255] ", 9.9.9.9", by decide +kernel⟩]
  else []

def oneProxy : TrustedProxyConfig := ⟨[.v4 10 0 0 1]⟩

theorem unforged_iff_mixed :
    Unforged oneProxy (elements (mixedHeaders.getAll "x-forwarded-for"))
        (IpAddr.v4 10 0 0 1).toCanonical
        (extractClientIp ⟨some (.v4 10 0 0 1), mixedHeaders⟩ (some oneProxy)) ↔
      ¬ Overlooked oneProxy (mixedHeaders.getAll "x-forwarded-for") :=
  unforged_iff (by decide) rfl

/-- The client is limited by the address it made up, not by the one the proxy appended. -/
theorem forged_mixed :
    extractClientIp ⟨some (.v4 10 0 0 1), mixedHeaders⟩ (some oneProxy) = .v4 6 6 6 6 ∧
    ¬ Unforged oneProxy (elements (mixedHeaders.getAll "x-forwarded-for"))
      (IpAddr.v4 10 0 0 1).toCanonical
      (extractClientIp ⟨some (.v4 10 0 0 1), mixedHeaders⟩ (some oneProxy)) := by
  refine ⟨by decide +kernel, not_unforged_of_overlooked (by decide) rfl ?_⟩
  refine ⟨[_], _, [], .v4 6 6 6 6, rfl, by decide +kernel, ?_, ?_, ?_⟩
  · rw [← walkForwarded_reverse_eq_some_iff]
    decide +kernel
  · intro x hx
    cases hx
  · rw [← walkForwarded_reverse_eq_some_iff]
    decide +kernel

end Forgery

end PJS
