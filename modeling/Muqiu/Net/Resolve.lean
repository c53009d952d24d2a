import Muqiu.Net.Address

/-!
# Resolving a host

`lookUp` cuts a host into a node and a service for `getaddrinfo`.  A pointer into the host is its
position.  What `getaddrinfo` is passed are C strings, which end at the first NUL.

`service` is set where a colon is found, before it is known whether the colon is the only one; with
a second colon it stays there (`lookUpArgs_colons`).
-/

namespace Muqiu

open Json (Text ascii)

/-- What a `char *` to a text shows. -/
def cString (t : Text) : Text := t.takeWhile (· != 0)

/-- `memchr` over `n` bytes from a position on. -/
def memchr (t : Text) (c : UInt8) (i n : Nat) : Option Nat :=
  (((t.drop i).take n).idxOf? c).map (i + ·)

namespace Address

/-! ## The code -/

/-- The first phase, with `node` and `service`. -/
def lookUpBracket (host : Text) : Text × Option Nat :=
  if host.head? = some 91 then
    match memchr host 93 1 (host.length - 1) with
    | some endipv6 =>
        ((host.drop 1).take (endipv6 - 1),
          if (host ++ [0])[endipv6 + 1]? = some 58 then some (endipv6 + 2) else none)
    | none => ([], none)
  else ([], none)

/-- The second phase, when there is no node yet. -/
def lookUpColon (host : Text) (s : Text × Option Nat) : Text × Option Nat :=
  if s.1 = [] then
    match memchr host 58 0 host.length with
    | some service =>
        if memchr host 58 (service + 1) (host.length - service - 1) = none then
          (host.take service, some (service + 1))
        else (s.1, some service)
    | none => (s.1, none)
  else s

/-- The node and the service that `getaddrinfo` gets from `lookUp`. -/
def lookUpArgs (host : Text) : Text × Option Text :=
  let s := lookUpColon host (lookUpBracket host)
  let node := if s.1 = [] then host else s.1
  (cString node, s.2.map fun service => cString (host.drop service))

/-- The fields of the `addrinfo` that `lookUp` fills in. -/
structure Hints where
  ai_flags : Int
  ai_family : Int
  ai_socktype : Int
  ai_protocol : Int
deriving DecidableEq, Repr

/-- `getaddrinfo`, with the first address and the others; `none` is an error. -/
abbrev Getaddrinfo := Text → Option Text → Hints → Option (Sockaddr × List Sockaddr)

/-- `lookUp`, with the addresses behind those of `result`. -/
def lookUp (getaddrinfo : Getaddrinfo) (result : List Address) (host : Text)
    (family type protocol : Int) : List Address × Bool :=
  let hints : Hints :=
    { ai_flags := 0, ai_family := family, ai_socktype := type, ai_protocol := protocol }
  match getaddrinfo (lookUpArgs host).1 (lookUpArgs host).2 hints with
  | none => (result, false)
  | some results =>
      let result := result ++ (results.1 :: results.2).map Address.create
      (result, !result.isEmpty)

/-! ## The rule -/

/-- A host has an opening bracket in front and a closing one behind it, the first after `x`. -/
def Brackets (host x rest : Text) : Prop := host = 91 :: (x ++ 93 :: rest) ∧ 93 ∉ x

/-- The node and the service of a host. -/
inductive Splits : Text → Text → Option Text → Prop where
  | bracketedPort {host x p : Text} : Brackets host x (58 :: p) → Splits host x (some p)
  | bracketed {host x rest : Text} :
      Brackets host x rest → rest.head? ≠ some 58 → Splits host x none
  | port {a p : Text} : (∀ x rest, ¬Brackets (a ++ 58 :: p) x rest) → a ≠ [] → 58 ∉ a → 58 ∉ p →
      Splits (a ++ 58 :: p) a (some p)
  | bare {host : Text} : (∀ x rest, ¬Brackets host x rest) → host.count 58 ≠ 1 →
      Splits host host none

/-- `getaddrinfo` gets the node and the service of a host. -/
def SplitsAsRuled (host : Text) : Prop :=
  ∀ node service, Splits host node service →
    lookUpArgs host = (cString node, service.map cString)

/-! ## Searching -/

theorem idxOf?_append_cons {c : UInt8} {mid : Text} (h : c ∉ mid) (rest : Text) :
    (mid ++ c :: rest).idxOf? c = some mid.length := by
  induction mid with
  | nil => exact List.idxOf?_cons.trans (if_pos (beq_self_eq_true c))
  | cons b mid ih =>
      rw [List.mem_cons, not_or] at h
      rw [List.cons_append, List.idxOf?_cons, if_neg fun hb => h.1 (beq_iff_eq.mp hb).symm, ih h.2]
      rfl

section Memchr

variable {t : Text} {c : UInt8} {i n : Nat}

theorem memchr_eq_some {mid : Text} (rest : Text) (ht : (t.drop i).take n = mid ++ c :: rest)
    (h : c ∉ mid) : memchr t c i n = some (i + mid.length) := by
  rw [memchr, ht, idxOf?_append_cons h]
  rfl

theorem memchr_eq_none (h : c ∉ (t.drop i).take n) : memchr t c i n = none := by
  rw [memchr, List.idxOf?_eq_none_iff.mpr h]
  rfl

end Memchr

/-! ## The first phase -/

theorem lookUpBracket_eq {host x rest : Text} (h : Brackets host x rest) :
    lookUpBracket host = (x, if rest.head? = some 58 then some (x.length + 3) else none) := by
  obtain ⟨rfl, hx⟩ := h
  have hclose : memchr (91 :: (x ++ 93 :: rest)) 93 1 ((91 :: (x ++ 93 :: rest)).length - 1) =
      some (1 + x.length) := by
    refine memchr_eq_some rest ?_ hx
    simp
  have hbehind : (91 :: (x ++ 93 :: rest) ++ [0])[1 + x.length + 1]? = some 58 ↔
      rest.head? = some 58 := by
    have hcut : 91 :: (x ++ 93 :: rest) ++ [0] = 91 :: (x ++ [93]) ++ (rest ++ [0]) := by simp
    have hlen : (91 :: (x ++ [93])).length = 1 + x.length + 1 := by simp [Nat.add_comm]
    rw [hcut, List.getElem?_append_right (Nat.le_of_eq hlen), hlen, Nat.sub_self]
    cases rest with
    | nil => decide
    | cons b rest => rfl
  have hnode : ((91 :: (x ++ 93 :: rest)).drop 1).take (1 + x.length - 1) = x := by
    rw [List.drop_succ_cons, List.drop_zero, Nat.add_sub_cancel_left, List.take_left]
  rw [lookUpBracket, if_pos List.head?_cons, hclose]
  simp only [hnode, hbehind]
  rw [show 1 + x.length + 2 = x.length + 3 by omega]

theorem lookUpBracket_none {host : Text} (h : ∀ x rest, ¬Brackets host x rest) :
    lookUpBracket host = ([], none) := by
  rw [lookUpBracket]
  split
  next hopen =>
    obtain ⟨host, rfl⟩ : ∃ t, host = 91 :: t := by
      cases host with
      | nil => cases hopen
      | cons b t => exact ⟨t, by rw [Option.some.inj hopen]⟩
    have hnone : memchr (91 :: host) 93 1 ((91 :: host).length - 1) = none := by
      refine memchr_eq_none ?_
      simp only [List.drop_succ_cons, List.drop_zero, List.length_cons, Nat.add_sub_cancel,
        List.take_length]
      intro hmem
      obtain ⟨x, rest, rfl, hx⟩ := List.eq_append_cons_of_mem hmem
      exact h x rest ⟨rfl, hx⟩
    rw [hnone]
  next => rfl

/-! ## The second phase -/

theorem lookUpColon_none {host : Text} {service : Option Nat} (h : 58 ∉ host) :
    lookUpColon host ([], service) = ([], none) := by
  rw [lookUpColon, if_pos rfl, memchr_eq_none (by simpa using h)]

theorem lookUpColon_one {a p : Text} {service : Option Nat} (ha : 58 ∉ a) (hp : 58 ∉ p) :
    lookUpColon (a ++ 58 :: p) ([], service) = (a, some (a.length + 1)) := by
  have hfirst : memchr (a ++ 58 :: p) 58 0 (a ++ 58 :: p).length = some (0 + a.length) :=
    memchr_eq_some p (by simp) ha
  have hsecond : memchr (a ++ 58 :: p) 58 (a.length + 1) ((a ++ 58 :: p).length - a.length - 1) =
      none := by
    refine memchr_eq_none ?_
    simpa using hp
  rw [lookUpColon, if_pos rfl, hfirst]
  simp only [Nat.zero_add, hsecond, if_true, List.take_left]

/-- With a second colon the service is left at the first one. -/
theorem lookUpColon_more {a p : Text} {service : Option Nat} (ha : 58 ∉ a) (hp : 58 ∈ p) :
    lookUpColon (a ++ 58 :: p) ([], service) = ([], some a.length) := by
  have hfirst : memchr (a ++ 58 :: p) 58 0 (a ++ 58 :: p).length = some (0 + a.length) :=
    memchr_eq_some p (by simp) ha
  obtain ⟨b, q, rfl, hb⟩ := List.eq_append_cons_of_mem hp
  have hsecond : memchr (a ++ 58 :: (b ++ 58 :: q)) 58 (a.length + 1)
      ((a ++ 58 :: (b ++ 58 :: q)).length - a.length - 1) = some (a.length + 1 + b.length) := by
    refine memchr_eq_some q ?_ hb
    simp
  rw [lookUpColon, if_pos rfl, hfirst]
  simp only [Nat.zero_add, hsecond, reduceCtorEq, if_false]

/-- After a first phase without a node the second one starts anew. -/
theorem lookUpColon_pair {host : Text} {s : Text × Option Nat} (h : s.1 = []) :
    lookUpColon host s = lookUpColon host ([], s.2) := by
  obtain ⟨node, service⟩ := s
  cases h
  rfl

/-! ## What is passed -/

section Passed

variable {host x rest a p : Text}

theorem lookUpArgs_brackets (h : Brackets host x rest) (hx : x ≠ []) :
    lookUpArgs host =
      (cString x, if rest.head? = some 58 then some (cString rest.tail) else none) := by
  have hphase : lookUpColon host (lookUpBracket host) = lookUpBracket host := by
    rw [lookUpBracket_eq h, lookUpColon, if_neg hx]
  rw [lookUpArgs, hphase, lookUpBracket_eq h]
  simp only [if_neg hx]
  obtain ⟨rfl, -⟩ := h
  split
  next hcolon =>
    obtain ⟨b, p, rfl⟩ : ∃ b p, rest = b :: p := by
      cases rest with
      | nil => cases hcolon
      | cons b p => exact ⟨b, p, rfl⟩
    have hdrop : (91 :: (x ++ 93 :: b :: p)).drop (x.length + 3) = p := by
      have hcut : 91 :: (x ++ 93 :: b :: p) = 91 :: (x ++ [93, b]) ++ p := by simp
      have hlen : (91 :: (x ++ [93, b])).length = x.length + 3 := by simp
      rw [hcut, ← hlen, List.drop_left]
    rw [Option.map_some, hdrop, List.tail_cons]
  next => rfl

theorem lookUpArgs_bare (h : (lookUpBracket host).1 = []) (hcolon : 58 ∉ host) :
    lookUpArgs host = (cString host, none) := by
  rw [lookUpArgs, lookUpColon_pair h, lookUpColon_none hcolon]
  rfl

theorem lookUpArgs_colon (h : (lookUpBracket (a ++ 58 :: p)).1 = []) (hne : a ≠ []) (ha : 58 ∉ a)
    (hp : 58 ∉ p) : lookUpArgs (a ++ 58 :: p) = (cString a, some (cString p)) := by
  have hdrop : (a ++ 58 :: p).drop (a.length + 1) = p := by simp
  rw [lookUpArgs, lookUpColon_pair h, lookUpColon_one ha hp]
  simp only [if_neg hne, Option.map_some, hdrop]

/-- The service is the text from the first colon on. -/
theorem lookUpArgs_colons (h : (lookUpBracket (a ++ 58 :: p)).1 = []) (ha : 58 ∉ a) (hp : 58 ∈ p) :
    lookUpArgs (a ++ 58 :: p) = (cString (a ++ 58 :: p), some (cString (58 :: p))) := by
  rw [lookUpArgs, lookUpColon_pair h, lookUpColon_more ha hp]
  simp only [if_true, Option.map_some, List.drop_left]

/-- The node is a part of the host that is not empty. -/
theorem lookUpArgs_fst (h : (lookUpBracket host).1 = []) :
    ∃ node, node <+: host ∧ (node = [] → host = []) ∧ (lookUpArgs host).1 = cString node := by
  have hprefix : (lookUpColon host ([], (lookUpBracket host).2)).1 <+: host := by
    rw [lookUpColon, if_pos rfl]
    split
    · split
      · exact List.take_prefix _ host
      · exact List.nil_prefix
    · exact List.nil_prefix
  rw [lookUpArgs, lookUpColon_pair h]
  dsimp only
  split
  next => exact ⟨host, List.prefix_refl host, id, rfl⟩
  next hne => exact ⟨_, hprefix, fun h0 => absurd h0 hne, rfl⟩

end Passed

/-! ## The rule -/

theorem Brackets.unique {host x rest x' rest' : Text} (h : Brackets host x rest)
    (h' : Brackets host x' rest') : x = x' := by
  obtain ⟨rfl, hx⟩ := h
  obtain ⟨heq, hx'⟩ := h'
  have htail := List.tail_eq_of_cons_eq heq
  have hidx := idxOf?_append_cons hx rest
  rw [htail, idxOf?_append_cons hx', Option.some.injEq] at hidx
  exact (List.append_inj htail hidx.symm).1

theorem exists_first_colon {host : Text} (h : 2 ≤ host.count 58) :
    ∃ a p, host = a ++ 58 :: p ∧ 58 ∉ a ∧ 58 ∈ p := by
  have hmem : (58 : UInt8) ∈ host := List.count_pos_iff.mp (Nat.lt_of_lt_of_le Nat.two_pos h)
  obtain ⟨a, p, rfl, ha⟩ := List.eq_append_cons_of_mem hmem
  refine ⟨a, p, rfl, ha, List.count_pos_iff.mp ?_⟩
  rw [List.count_append, List.count_eq_zero.mpr ha, List.count_cons_self] at h
  omega

section Ruled

variable {host x rest : Text}

theorem splitsAsRuled_brackets (hb : Brackets host x rest) (hx : x ≠ []) : SplitsAsRuled host := by
  intro node service hsplits
  cases hsplits with
  | bracketedPort hb' =>
      rw [lookUpArgs_brackets hb' (hb.unique hb' ▸ hx)]
      rfl
  | bracketed hb' hhead =>
      rw [lookUpArgs_brackets hb' (hb.unique hb' ▸ hx), if_neg hhead]
      rfl
  | port hno _ _ _ => exact absurd hb (hno x rest)
  | bare hno _ => exact absurd hb (hno x rest)

theorem splitsAsRuled_bare (hno : ∀ x rest, ¬Brackets host x rest) (hcount : host.count 58 ≤ 1) :
    SplitsAsRuled host := by
  intro node service hsplits
  have hphase : (lookUpBracket host).1 = [] := by rw [lookUpBracket_none hno]
  cases hsplits with
  | bracketedPort hb => exact absurd hb (hno _ _)
  | bracketed hb _ => exact absurd hb (hno _ _)
  | port _ hne ha hp => exact lookUpArgs_colon hphase hne ha hp
  | bare _ hone => exact lookUpArgs_bare hphase (List.count_eq_zero.mp (by omega))

/-- Empty brackets are taken for none. -/
theorem not_splitsAsRuled_empty (hb : Brackets host [] rest) : ¬SplitsAsRuled host := by
  intro hruled
  have hfst : (lookUpArgs host).1 = [] := by
    by_cases hhead : rest.head? = some 58
    · obtain ⟨p, rfl⟩ := List.head?_eq_some_iff.mp hhead
      rw [hruled _ _ (.bracketedPort hb)]
      rfl
    · rw [hruled _ _ (.bracketed hb hhead)]
      rfl
  obtain ⟨node, hprefix, hnil, heq⟩ := lookUpArgs_fst (by rw [lookUpBracket_eq hb])
  obtain ⟨rfl, -⟩ := hb
  cases node with
  | nil => cases hnil rfl
  | cons b node =>
      obtain ⟨rfl, -⟩ := List.cons_prefix_cons.mp hprefix
      rw [heq] at hfst
      exact absurd hfst (by simp [cString])

theorem not_splitsAsRuled_colons (hno : ∀ x rest, ¬Brackets host x rest)
    (hcount : 2 ≤ host.count 58) : ¬SplitsAsRuled host := by
  intro hruled
  have hbare := hruled _ _ (.bare hno (by omega))
  have hphase : (lookUpBracket host).1 = [] := by rw [lookUpBracket_none hno]
  obtain ⟨a, p, rfl, ha, hp⟩ := exists_first_colon hcount
  rw [lookUpArgs_colons hphase ha hp] at hbare
  cases hbare

end Ruled

/-- The pair is right for the text in brackets that is not empty, and without brackets for one
colon at most. -/
theorem splitsAsRuled_iff (host : Text) :
    SplitsAsRuled host ↔
      (∃ x rest, Brackets host x rest ∧ x ≠ []) ∨
        (∀ x rest, ¬Brackets host x rest) ∧ host.count 58 ≤ 1 := by
  constructor
  · intro hruled
    by_cases hb : ∃ x rest, Brackets host x rest
    · obtain ⟨x, rest, hb⟩ := hb
      refine Or.inl ⟨x, rest, hb, ?_⟩
      rintro rfl
      exact not_splitsAsRuled_empty hb hruled
    · have hno : ∀ x rest, ¬Brackets host x rest := fun x rest h => hb ⟨x, rest, h⟩
      exact Or.inr ⟨hno, Nat.not_lt.mp fun hcount => not_splitsAsRuled_colons hno hcount hruled⟩
  · rintro (⟨x, rest, hb, hx⟩ | ⟨hno, hcount⟩)
    · exact splitsAsRuled_brackets hb hx
    · exact splitsAsRuled_bare hno hcount

theorem ipv6Literal_not_splitsAsRuled : ¬SplitsAsRuled (ascii "::1") := by
  intro h
  have hno : ∀ x rest, ¬Brackets (ascii "::1") x rest := by
    rintro x rest ⟨heq, -⟩
    cases heq
  have hbare := h _ _ (.bare hno (by decide))
  exact absurd hbare (by decide)

end Address

namespace IPAddress

/-! ## Numeric hosts -/

/-- `AI_NUMERICHOST` -/
def AI_NUMERICHOST : Int := 4

/-- `AF_UNSPEC` -/
def AF_UNSPEC : Int := 0

/-- `result` in `Create`. -/
def createResult (results : Sockaddr × List Sockaddr) (port : UInt16) : Option IPAddress :=
  match Address.create results.1 with
  | .ip a => some (a.setPort port)
  | .unknown _ => none

/-- `IPAddress::Create` -/
def Create (getaddrinfo : Address.Getaddrinfo) (address : Text) (port : UInt16) :
    Option IPAddress :=
  let hints : Address.Hints :=
    { ai_flags := AI_NUMERICHOST, ai_family := AF_UNSPEC, ai_socktype := 0, ai_protocol := 0 }
  match getaddrinfo address none hints with
  | none => none
  | some results =>
      let _result := createResult results port
      -- `result` is not returned
      none

/-- `IPAddress::Create` agrees with the constructors of the two families at a text. -/
structure CreateAgrees (getaddrinfo : Address.Getaddrinfo) (inet_pton : Text → Option UInt32)
    (inet_pton6 : Text → Option In6Addr) (text : Text) (port : UInt16) : Prop where
  ipv4 : ∀ v, IPv4Address.Create inet_pton text port = some v →
    ∃ a, Create getaddrinfo text port = some a ∧ a.getPort = port ∧ a.toText = v.insert
  ipv6 : ∀ v, IPv6Address.Create inet_pton6 text port = some v →
    ∃ a, Create getaddrinfo text port = some a ∧ a.getPort = port ∧ a.toText = v.insert
  other : inet_pton text = none → inet_pton6 text = none → Create getaddrinfo text port = none

section

variable {getaddrinfo : Address.Getaddrinfo} {inet_pton : Text → Option UInt32}
  {inet_pton6 : Text → Option In6Addr} {text : Text} {port : UInt16}

theorem Create_eq_none : Create getaddrinfo text port = none := by
  rw [Create]
  split <;> rfl

/-- What `Create` makes of an IPv4 address is what `IPv4Address::Create` returns, up to the fields
that are not printed. -/
theorem createResult_ipv4 {v : IPv4Address} {addr : SockaddrIn} {more : List Sockaddr}
    (h : IPv4Address.Create inet_pton text port = some v)
    (haddr : inet_pton text = some addr.s_addr) :
    ∃ a, createResult (.inet addr, more) port = some a ∧ a.getPort = port ∧
      a.toText = v.insert := by
  rw [IPv4Address.Create, haddr, Option.map_some, Option.some.injEq] at h
  subst h
  exact ⟨_, rfl, byteswap16_byteswap16 port, rfl⟩

theorem createResult_ipv6 {v : IPv6Address} {addr : SockaddrIn6} {more : List Sockaddr}
    (h : IPv6Address.Create inet_pton6 text port = some v)
    (haddr : inet_pton6 text = some addr.s6_addr) :
    ∃ a, createResult (.inet6 addr, more) port = some a ∧ a.getPort = port ∧
      a.toText = v.insert := by
  rw [IPv6Address.Create, haddr, Option.map_some, Option.some.injEq] at h
  subst h
  exact ⟨_, rfl, byteswap16_byteswap16 port, rfl⟩

/-- The constructors agree where none of them gives an address. -/
theorem createAgrees_iff :
    CreateAgrees getaddrinfo inet_pton inet_pton6 text port ↔
      inet_pton text = none ∧ inet_pton6 text = none := by
  constructor
  · intro h
    constructor
    · cases hread : inet_pton text with
      | none => rfl
      | some s_addr =>
          obtain ⟨a, ha, -⟩ := h.ipv4 _ (by rw [IPv4Address.Create, hread, Option.map_some])
          rw [Create_eq_none] at ha
          cases ha
    · cases hread : inet_pton6 text with
      | none => rfl
      | some s6_addr =>
          obtain ⟨a, ha, -⟩ := h.ipv6 _ (by rw [IPv6Address.Create, hread, Option.map_some])
          rw [Create_eq_none] at ha
          cases ha
  · rintro ⟨hnone, hnone6⟩
    constructor
    · intro v hv
      rw [IPv4Address.Create, hnone] at hv
      cases hv
    · intro v hv
      rw [IPv6Address.Create, hnone6] at hv
      cases hv
    · exact fun _ _ => Create_eq_none

end

/-- A `getaddrinfo` and an `inet_pton` that read the text 127.0.0.8. -/
theorem numericHost_not_createAgrees :
    ¬CreateAgrees
      (fun t _ _ => if t = ascii "127.0.0.8" then
        some (.inet { sin_family := AF_INET, sin_port := 0, s_addr := 0x0800007f }, []) else none)
      (fun t => if t = ascii "127.0.0.8" then some 0x0800007f else none)
      (fun _ => none) (ascii "127.0.0.8") 80 := by
  intro h
  obtain ⟨a, ha, -⟩ := h.ipv4 _ rfl
  rw [Create_eq_none] at ha
  cases ha

end IPAddress

end Muqiu
