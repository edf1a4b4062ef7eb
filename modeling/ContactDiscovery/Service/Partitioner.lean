/-
  ContactDiscovery.Service.Partitioner — which hosts of the rate limit service have a user
  (`PhoneLimiterPartitioner.java`, `RateLimitServicePartitioner.java`, `HostRangeConfig` in
  `RateLimitServiceConfiguration.java`).

  The configuration gives ranges of hashes, as texts in hexadecimal of either case, each with its
  hosts. They are sorted and compared as they are written, then in lower case; that one range starts
  right after the one before is checked on the numbers. A user belongs to the first range, by end, that
  does not end before the hash of the user's number, and texts are compared for that.

  Proved: `hosts_partition`, that the ranges of a configuration which is accepted have each hash in
  exactly one of them, as texts and as numbers, and that the lookup of a user finds that one's hosts.
  Texts in lower case and of one length are in the order of their numbers. `bounds_hash_iff`, that the
  bounds of such a configuration are pairs of digits, and hashes exactly if each was written with 32
  characters; only the first start and the last end are compared with a text of that length, so shorter
  bounds between them are accepted, and then the texts and the numbers are of different ranges
  (`short_bounds_accepted`).

  `Hex.decode` passes over white space, and `BigInteger` does not; so a bound with white space is
  refused where its number is read, and the first start and the last end have none. A `HashMap` is kept
  in the order of its keys, which nothing depends on. Texts are lists of characters; Java orders those
  beyond the basic plane otherwise, but they are in no text that is accepted.
-/

import ContactDiscovery.Lib.Bytes
import ContactDiscovery.Lib.Intervals
import ContactDiscovery.Lib.Numeral

namespace ContactDiscovery.Service.Partitioner

open Lib Lib.Intervals Lib.Numeral

abbrev Text := List Char

/-! ## Configurations -/

structure HostRangeConfig where
  addrs : List Text
  start : Text
  end_ : Text

/-- `compareTo`, as an order. -/
def HostRangeConfig.le (a b : HostRangeConfig) : Prop := a.start < b.start ∨ a.start = b.start ∧ a.end_ ≤ b.end_

instance : DecidableRel HostRangeConfig.le := fun _ _ => inferInstanceAs (Decidable (_ ∨ _))

inductive ConfigException where
  | emptyRangeList
  | invalidHex (str : Text)
  | endsBeforeItBegins (start end_ : Text)
  /-- Of `URI.create`. -/
  | invalidUri (addr : Text)
  | firstStart (start : Text)
  | lastEnd (end_ : Text)
  | rangeEndsBeforeItBegins (index : Nat)
  /-- Of `BigInteger`. -/
  | numberFormat
  | notAdjoining (index : Nat) (prevStart prevEnd currStart currEnd : Text)

def zero : Text := List.replicate 32 '0'
def max : Text := List.replicate 32 'f'

/-- The texts of the exceptions that are thrown here. -/
def ConfigException.getMessage : ConfigException → Option String
  | .emptyRangeList => some "empty range list is not allowed"
  | .invalidHex str =>
    let str := String.ofList str
    some s!"invalid hex string \"{str}\" in host range config"
  | .endsBeforeItBegins start end_ =>
    let start := String.ofList start
    let end_ := String.ofList end_
    some s!"range ({start}, {end_}) ends before it begins ({start}, {end_})"
  | .invalidUri _ => none
  | .firstStart start =>
    let start := String.ofList start
    let zero := String.ofList zero
    some s!"first rate limit service host range starts at {start}, not {zero}"
  | .lastEnd end_ =>
    let end_ := String.ofList end_
    let max := String.ofList max
    some s!"last rate limit service host range ends at {end_}, not {max}"
  | .rangeEndsBeforeItBegins index => some s!"Rate limit service host range at index {index} ends before it begins"
  | .numberFormat => none
  | .notAdjoining index prevStart prevEnd currStart currEnd =>
    let prevStart := String.ofList prevStart
    let prevEnd := String.ofList prevEnd
    let currStart := String.ofList currStart
    let currEnd := String.ofList currEnd
    let before := index - 1
    some (s!"Rate limit service host range at index {before} ({prevStart}, {prevEnd}) is not right up against " ++
      s!"the host range of index {index} ({currStart}, {currEnd})")

def whiteSpace : Text := ['\n', '\r', '\t', ' ']

/-- `Hex.decode` takes pairs of digits, and passes over white space. -/
def validateHex (str : Text) : Except ConfigException Unit :=
  let digits := str.filter fun c => c ∉ whiteSpace
  if digits.all (fun c => (digitOf 16 c).isSome) ∧ digits.length % 2 = 0 then .ok () else .error (.invalidHex str)

/-- `new BigInteger(str, 16)` of text without a sign. -/
def bigInteger (str : Text) : Option Nat := if str = [] then none else readDigits (digitOf 16) 16 0 str

def toLowerCase (str : Text) : Text := str.map Char.toLower

structure HostRange (URI : Type) where
  hostIdToAddrs : List (Text × URI)
  start : Text
  end_ : Text

def hexEncode (bytes : List Byte) : Text := bytes.flatMap fun b => numeral 16 2 b.toNat

section Ranges

variable {URI : Type} (sha256 : Text → List Byte) (uriCreate : Text → Option URI)

def hostIds (hosts : List (Text × URI)) : List Text → Except ConfigException (List (Text × URI))
  | [] => .ok hosts
  | addr :: addrs =>
    match uriCreate addr with
    | none => .error (.invalidUri addr)
    | some uri => hostIds (put (hexEncode (sha256 addr)) uri hosts) addrs

def toHostRange (config : HostRangeConfig) : Except ConfigException (HostRange URI) :=
  match validateHex config.start with
  | .error e => .error e
  | .ok () =>
    match validateHex config.end_ with
    | .error e => .error e
    | .ok () =>
      if config.start < config.end_ then
        match hostIds sha256 uriCreate [] config.addrs with
        | .error e => .error e
        | .ok hosts => .ok ⟨hosts, toLowerCase config.start, toLowerCase config.end_⟩
      else .error (.endsBeforeItBegins config.start config.end_)

def checkAdjoining : Nat → HostRange URI → List (HostRange URI) → Except ConfigException Unit
  | _, _, [] => .ok ()
  | i, prev, curr :: rest =>
    if curr.start < curr.end_ then
      match bigInteger prev.end_, bigInteger curr.start with
      | some prevEnd, some currStart =>
        if prevEnd + 1 = currStart then checkAdjoining (i + 1) curr rest
        else .error (.notAdjoining i prev.start prev.end_ curr.start curr.end_)
      | _, _ => .error .numberFormat
    else .error (.rangeEndsBeforeItBegins i)

/-- The checks of all ranges; the exceptions have the bounds as they are written. -/
def checkRanges (firstStart lastEnd : Text) : List (HostRange URI) → Except ConfigException Unit
  | [] => .error .emptyRangeList
  | first :: rest =>
    if first.start ≠ zero then .error (.firstStart firstStart)
    else if ((first :: rest).getLast (by simp)).end_ ≠ max then .error (.lastEnd lastEnd)
    else if first.start < first.end_ then checkAdjoining 1 first rest
    else .error (.rangeEndsBeforeItBegins 0)

def configToHostRanges (immutableConfigs : List HostRangeConfig) : Except ConfigException (List (HostRange URI)) :=
  match immutableConfigs.insertionSort HostRangeConfig.le with
  | [] => .error .emptyRangeList
  | first :: rest =>
    match (first :: rest).mapM (toHostRange sha256 uriCreate) with
    | .error e => .error e
    | .ok ranges => (checkRanges first.start ((first :: rest).getLast (by simp)).end_ ranges).map fun _ => ranges

end Ranges

/-! ## Lookups -/

inductive PartitionerException where
  | noRanges
  | noHosts (index : Nat)
  | hashFunction

def PartitionerException.getMessage : PartitionerException → String
  | .noRanges => "RateLimitServicePartitioner needs at least one range to talk to"
  | .noHosts index =>
    s!"RateLimitServicePartitioner needs at least one host to talk to in each range but range at index {index} doesn't"
  | .hashFunction => "Hash function didn't work correctly. A code bug."

structure RateLimitServicePartitioner (URI : Type) where
  ranges : List (Text × HostRange URI)
  hashFunc : Text → Text

namespace RateLimitServicePartitioner

variable {URI : Type}

def putAll (i : Nat) (ranges : List (Text × HostRange URI)) :
    List (HostRange URI) → Except PartitionerException (List (Text × HostRange URI))
  | [] => .ok ranges
  | range :: rest =>
    if range.hostIdToAddrs.length > 0 then putAll (i + 1) (put range.end_ range ranges) rest else .error (.noHosts i)

def new (rangeList : List (HostRange URI)) (hashFunc : Text → Text) :
    Except PartitionerException (RateLimitServicePartitioner URI) :=
  if rangeList.length > 0 then (putAll 0 [] rangeList).map fun ranges => ⟨ranges, hashFunc⟩ else .error .noRanges

def lookup (p : RateLimitServicePartitioner URI) (userNumber : Text) : Except PartitionerException (List (Text × URI)) :=
  match ceilingEntry (p.hashFunc userNumber) p.ranges with
  | none => .error .hashFunction
  | some range => .ok range.2.hostIdToAddrs

end RateLimitServicePartitioner

/-! ## Bounds -/

def hexDigits : Text := (List.range 16).map Nat.digitChar

/-- A hash as it is written: 32 digits in lower case. -/
structure IsHash (str : Text) : Prop where
  size : str.length = 32
  digits : ∀ c ∈ str, c ∈ hexDigits

/-- A range that has a hash, as texts. -/
def HostRange.hasText {URI : Type} (h : Text) (range : HostRange URI) : Bool := range.start ≤ h ∧ h ≤ range.end_

/-- A range that has a hash, as numbers. -/
def HostRange.hasNumber {URI : Type} (h : Text) (range : HostRange URI) : Bool :=
  match bigInteger range.start, bigInteger h, bigInteger range.end_ with
  | some start, some n, some end_ => start ≤ n ∧ n ≤ end_
  | _, _, _ => false

theorem mem_hexDigits {c : Char} : c ∈ hexDigits ↔ ∃ d < 16, c = Nat.digitChar d := by
  simp [hexDigits, eq_comm]

theorem mem_of_digitOf {c : Char} {d : Nat} (hupper : c.isUpper = false) (h : digitOf 16 c = some d) :
    c ∈ hexDigits := by
  have hc : ¬('A' ≤ c ∧ c ≤ 'Z') := by
    simpa [Char.isUpper, Char.le_def] using hupper
  have hrange : 48 ≤ c.toNat ∧ c.toNat ≤ 57 ∨ 97 ≤ c.toNat ∧ c.toNat ≤ 102 := by
    simp only [digitOf, if_neg hc, Option.ite_none_right_eq_some] at h
    obtain ⟨hlt, -⟩ := h
    split at hlt
    · rename_i hdigit
      exact .inl ⟨hdigit.1, hdigit.2⟩
    · split at hlt
      · rename_i hletter
        have hge : 97 ≤ c.toNat := hletter.1
        exact .inr ⟨hge, by omega⟩
      · omega
  rw [mem_hexDigits, ← Char.ofNat_toNat c]
  generalize c.toNat = n at hrange
  have hcodes : ∀ n < 103, 48 ≤ n ∧ n ≤ 57 ∨ 97 ≤ n ∧ n ≤ 102 → ∃ d < 16, Char.ofNat n = Nat.digitChar d := by decide
  exact hcodes n (by omega) hrange

def number (str : Text) : Nat := (bigInteger str).getD 0

namespace IsHash

variable {a b : Text}

/-- A hash is the numeral of its number. -/
theorem eq_numeral (h : IsHash a) : ∃ n < 16 ^ 32, a = numeral 16 32 n ∧ bigInteger a = some n := by
  obtain ⟨n, hn, ha⟩ := Numeral.eq_numeral fun c hc => mem_hexDigits.mp (h.digits c hc)
  rw [h.size] at hn ha
  have hne : a ≠ [] := fun hnil => by simpa [hnil] using h.size
  have hread : readDigits (digitOf 16) 16 0 a = some n := by
    rw [ha, readDigits_numeral (by decide) le_rfl, Nat.zero_mul, Nat.zero_add, Nat.mod_eq_of_lt hn]
  exact ⟨n, hn, ha, by rw [bigInteger, if_neg hne, hread]⟩

theorem bigInteger_eq (h : IsHash a) : bigInteger a = some (number a) := by
  obtain ⟨n, -, -, hn⟩ := h.eq_numeral
  rw [number, hn, Option.getD_some]

theorem number_lt (h : IsHash a) : number a < 16 ^ 32 := by
  obtain ⟨n, hlt, -, hn⟩ := h.eq_numeral
  rwa [number, hn]

theorem lt_iff (ha : IsHash a) (hb : IsHash b) : a < b ↔ number a < number b := by
  obtain ⟨m, hm, hma, hm'⟩ := ha.eq_numeral
  obtain ⟨n, hn, hnb, hn'⟩ := hb.eq_numeral
  have hnumerals : numeral 16 32 m < numeral 16 32 n ↔ m < n := numeral_lt_numeral (by decide) le_rfl hm hn
  rw [← hma, ← hnb] at hnumerals
  rw [hnumerals, number, number, hm', hn', Option.getD_some, Option.getD_some]

theorem le_iff (ha : IsHash a) (hb : IsHash b) : a ≤ b ↔ number a ≤ number b := by
  rw [← not_lt, ← not_lt, hb.lt_iff ha]

end IsHash

theorem replicate_isHash {c : Char} (h : c ∈ hexDigits) : IsHash (List.replicate 32 c) :=
  ⟨by simp, fun c' hc' => List.eq_of_mem_replicate hc' ▸ h⟩

theorem zero_isHash : IsHash zero := replicate_isHash (by decide)
theorem max_isHash : IsHash max := replicate_isHash (by decide)

theorem number_zero : number zero = 0 := by decide +kernel
theorem number_max : number max + 1 = 16 ^ 32 := by decide +kernel

theorem digits_of_bigInteger {raw : Text} (h : (bigInteger (toLowerCase raw)).isSome = true) :
    toLowerCase raw ≠ [] ∧ ∀ c ∈ toLowerCase raw, c ∈ hexDigits := by
  obtain ⟨n, hn⟩ := Option.isSome_iff_exists.mp h
  unfold bigInteger at hn
  split at hn
  · cases hn
  rename_i hne
  refine ⟨hne, fun c hc => ?_⟩
  obtain ⟨d, hd⟩ := digit_of_readDigits hn c hc
  obtain ⟨c', -, rfl⟩ := List.mem_map.mp hc
  exact mem_of_digitOf (Char.isUpper_toLower_eq_false c') hd

/-- A bound as `configToHostRanges` leaves it. -/
def Lowered (str : Text) : Prop := ∃ raw : Text, raw.length = 32 ∧ str = toLowerCase raw

theorem Lowered.isHash {str : Text} (h : Lowered str) (hread : (bigInteger str).isSome = true) : IsHash str := by
  obtain ⟨raw, hsize, rfl⟩ := h
  exact ⟨by simpa [toLowerCase] using hsize, (digits_of_bigInteger hread).2⟩

/-- A range with hashes for bounds has the same hashes as texts and as numbers. -/
theorem IsHash.hasText_eq {URI : Type} {h : Text} (hh : IsHash h) {range : HostRange URI} (hstart : IsHash range.start)
    (hend : IsHash range.end_) :
    HostRange.hasText h range = decide (number range.start ≤ number h ∧ number h ≤ number range.end_) := by
  simp only [HostRange.hasText, hstart.le_iff hh, hh.le_iff hend]

theorem IsHash.hasNumber_eq {URI : Type} {h : Text} (hh : IsHash h) {range : HostRange URI} (hstart : IsHash range.start)
    (hend : IsHash range.end_) :
    HostRange.hasNumber h range = decide (number range.start ≤ number h ∧ number h ≤ number range.end_) := by
  simp only [HostRange.hasNumber, hstart.bigInteger_eq, hh.bigInteger_eq, hend.bigInteger_eq]

/-! ## Accepted configurations -/

section Accepted

variable {URI : Type} {sha256 : Text → List Byte} {uriCreate : Text → Option URI}

theorem hostIds_ne_nil {hosts hosts' : List (Text × URI)} {addrs : List Text}
    (h : hostIds sha256 uriCreate hosts addrs = .ok hosts') (hne : hosts ≠ [] ∨ addrs ≠ []) : hosts' ≠ [] := by
  induction addrs generalizing hosts with
  | nil =>
    cases h
    simpa using hne
  | cons addr addrs ih =>
    rw [hostIds] at h
    split at h
    · cases h
    · exact ih h (.inl (put_ne_nil _ _ _))

theorem toHostRange_ok {config : HostRangeConfig} {range : HostRange URI} (h : toHostRange sha256 uriCreate config = .ok range) :
    range.start = toLowerCase config.start ∧ range.end_ = toLowerCase config.end_ ∧
      (config.addrs ≠ [] → range.hostIdToAddrs ≠ []) := by
  unfold toHostRange at h
  split at h
  · cases h
  split at h
  · cases h
  split at h
  · split at h
    · cases h
    · rename_i hosts hhosts
      cases h
      exact ⟨rfl, rfl, fun hne => hostIds_ne_nil hhosts (.inr hne)⟩
  · cases h

theorem exists_of_mapM {α β ε : Type} {f : α → Except ε β} {l : List α} {l' : List β} (h : l.mapM f = .ok l') :
    (∀ b ∈ l', ∃ a ∈ l, f a = .ok b) ∧ ∀ a ∈ l, ∃ b ∈ l', f a = .ok b := by
  induction l generalizing l' with
  | nil =>
    cases h
    simp
  | cons a l ih =>
    rw [List.mapM_cons] at h
    cases ha : f a with
    | error e => simp [ha, bind, Except.bind] at h
    | ok b =>
      cases hl : l.mapM f with
      | error e => simp [ha, hl, bind, Except.bind] at h
      | ok bs =>
        simp only [ha, hl, bind, Except.bind] at h
        cases h
        obtain ⟨hfrom, hto⟩ := ih hl
        constructor
        · intro b' hb'
          rcases List.mem_cons.mp hb' with rfl | hb'
          · exact ⟨a, by simp, ha⟩
          · obtain ⟨a', ha', hf⟩ := hfrom b' hb'
            exact ⟨a', by simp [ha'], hf⟩
        · intro a' ha'
          rcases List.mem_cons.mp ha' with rfl | ha'
          · exact ⟨b, by simp, ha⟩
          · obtain ⟨b', hb', hf⟩ := hto a' ha'
            exact ⟨b', by simp [hb'], hf⟩

/-- The bounds of the ranges are read as numbers, but for the first and the last. -/
theorem checkAdjoining_read {i : Nat} {prev : HostRange URI} {rest : List (HostRange URI)}
    (hstart : (bigInteger prev.start).isSome = true) (hlast : ((prev :: rest).getLast (by simp)).end_ = max)
    (h : checkAdjoining i prev rest = .ok ()) :
    ∀ r ∈ prev :: rest, (bigInteger r.start).isSome = true ∧ (bigInteger r.end_).isSome = true := by
  induction rest generalizing i prev with
  | nil =>
    have hend : prev.end_ = max := hlast
    intro r hr
    rw [List.mem_singleton.mp hr, hend]
    exact ⟨hstart, by rw [max_isHash.bigInteger_eq]; rfl⟩
  | cons curr rest ih =>
    rw [checkAdjoining] at h
    split at h
    swap
    · cases h
    split at h
    swap
    · cases h
    rename_i prevEnd currStart hprevEnd hcurrStart
    split at h
    swap
    · cases h
    intro r hr
    rcases List.mem_cons.mp hr with rfl | hr
    · exact ⟨hstart, by rw [hprevEnd]; rfl⟩
    · exact ih (by rw [hcurrStart]; rfl) hlast h r hr

/-- The ranges from one on tile the hashes from its start on. -/
theorem checkAdjoining_tiles {i : Nat} {prev : HostRange URI} {rest : List (HostRange URI)}
    (hhash : ∀ r ∈ prev :: rest, IsHash r.start ∧ IsHash r.end_) (hlt : prev.start < prev.end_)
    (hlast : ((prev :: rest).getLast (by simp)).end_ = max) (h : checkAdjoining i prev rest = .ok ()) :
    Tiles (fun r => number r.start) (fun r => number r.end_) (number prev.start) (prev :: rest) (16 ^ 32) := by
  induction rest generalizing i prev with
  | nil =>
    obtain ⟨hstart, hend⟩ := hhash prev List.mem_cons_self
    refine ⟨rfl, ((hstart.lt_iff hend).mp hlt).le, ?_⟩
    show number prev.end_ + 1 = 16 ^ 32
    rw [show prev.end_ = max from hlast, number_max]
  | cons curr rest ih =>
    rw [checkAdjoining] at h
    split at h
    swap
    · cases h
    rename_i hcurr
    split at h
    swap
    · cases h
    rename_i prevEnd currStart hprevEnd hcurrStart
    split at h
    swap
    · cases h
    rename_i hnext
    obtain ⟨hstart, hend⟩ := hhash prev List.mem_cons_self
    refine ⟨rfl, ((hstart.lt_iff hend).mp hlt).le, ?_⟩
    have hadjoin : number prev.end_ + 1 = number curr.start := by simpa [number, hprevEnd, hcurrStart] using hnext
    show Tiles _ _ (number prev.end_ + 1) (curr :: rest) (16 ^ 32)
    rw [hadjoin]
    exact ih (fun r hr => hhash r (List.mem_cons_of_mem _ hr)) hcurr hlast h

theorem checkRanges_ok {firstStart lastEnd : Text} {ranges : List (HostRange URI)} (h : checkRanges firstStart lastEnd ranges = .ok ()) :
    ∃ first rest, ranges = first :: rest ∧ first.start = zero ∧ ((first :: rest).getLast (by simp)).end_ = max ∧
      first.start < first.end_ ∧ checkAdjoining 1 first rest = .ok () := by
  cases ranges with
  | nil => cases h
  | cons first rest =>
    rw [checkRanges] at h
    split at h
    · cases h
    rename_i hstart
    split at h
    · cases h
    rename_i hlast
    split at h
    · rename_i hlt
      exact ⟨first, rest, rfl, not_not.mp hstart, not_not.mp hlast, hlt, h⟩
    · cases h

/-- What a configuration that is accepted passed: its ranges are those of the entries, their bounds are
    read as numbers, and they adjoin. -/
theorem configToHostRanges_ok {configs : List HostRangeConfig} {ranges : List (HostRange URI)}
    (h : configToHostRanges sha256 uriCreate configs = .ok ranges) :
    (∀ r ∈ ranges, ∃ c ∈ configs, toHostRange sha256 uriCreate c = .ok r) ∧
    (∀ c ∈ configs, ∃ r ∈ ranges, toHostRange sha256 uriCreate c = .ok r) ∧
    (∀ r ∈ ranges, (bigInteger r.start).isSome = true ∧ (bigInteger r.end_).isSome = true) ∧
    ∃ first rest, ranges = first :: rest ∧ first.start = zero ∧ ((first :: rest).getLast (by simp)).end_ = max ∧
      first.start < first.end_ ∧ checkAdjoining 1 first rest = .ok () := by
  unfold configToHostRanges at h
  split at h
  · cases h
  rename_i first rest hsorted
  have hmem : ∀ c, c ∈ first :: rest ↔ c ∈ configs := fun c => by rw [← hsorted, List.mem_insertionSort]
  split at h
  · cases h
  rename_i mapped hmap
  cases hcheck : checkRanges first.start ((first :: rest).getLast (by simp)).end_ mapped with
  | error e =>
    rw [hcheck] at h
    cases h
  | ok =>
    rw [hcheck] at h
    cases h
    obtain ⟨hfrom, hto⟩ := exists_of_mapM hmap
    obtain ⟨r, rest', rfl, hstart, hlast, hlt, hadjoin⟩ := checkRanges_ok hcheck
    refine ⟨fun r' hr' => ?_, fun c hc => hto c ((hmem c).mpr hc), ?_, r, rest', rfl, hstart, hlast, hlt, hadjoin⟩
    · obtain ⟨c, hc, hr⟩ := hfrom r' hr'
      exact ⟨c, (hmem c).mp hc, hr⟩
    · exact checkAdjoining_read (by rw [hstart, zero_isHash.bigInteger_eq]; rfl) hlast hadjoin

theorem configToHostRanges_tiles {configs : List HostRangeConfig} {ranges : List (HostRange URI)}
    (h : configToHostRanges sha256 uriCreate configs = .ok ranges)
    (hsize : ∀ c ∈ configs, c.start.length = 32 ∧ c.end_.length = 32) :
    (∀ r ∈ ranges, IsHash r.start ∧ IsHash r.end_) ∧
      Tiles (fun r => number r.start) (fun r => number r.end_) 0 ranges (16 ^ 32) ∧
      ∀ r ∈ ranges, ∃ c ∈ configs, toHostRange sha256 uriCreate c = .ok r := by
  obtain ⟨hfrom, -, hread, first, rest, rfl, hstart, hlast, hlt, hadjoin⟩ := configToHostRanges_ok h
  have hhash : ∀ r ∈ first :: rest, IsHash r.start ∧ IsHash r.end_ := fun r hr => by
    obtain ⟨c, hc, hcr⟩ := hfrom r hr
    obtain ⟨hs, he, -⟩ := toHostRange_ok hcr
    exact ⟨Lowered.isHash ⟨c.start, (hsize c hc).1, hs⟩ (hread r hr).1, Lowered.isHash ⟨c.end_, (hsize c hc).2, he⟩ (hread r hr).2⟩
  have htiles := checkAdjoining_tiles hhash hlt hlast hadjoin
  rw [hstart, number_zero] at htiles
  exact ⟨hhash, htiles, hfrom⟩

end Accepted

/-! ## The bounds of an accepted configuration -/

section Bounds

variable {URI : Type}

/-- Pairs of digits in lower case, one at least. -/
structure IsHex (str : Text) : Prop where
  nonempty : str ≠ []
  even : str.length % 2 = 0
  digits : ∀ c ∈ str, c ∈ hexDigits

/-- A text that passes, and has digits only in lower case, has pairs of them: white space is no digit in
    either case. -/
theorem isHex_of_validateHex {raw : Text} (hvalid : validateHex raw = .ok ())
    (hread : (bigInteger (toLowerCase raw)).isSome = true) : IsHex (toLowerCase raw) := by
  obtain ⟨hne, hdigits⟩ := digits_of_bigInteger hread
  refine ⟨hne, ?_, hdigits⟩
  have hblank : (whiteSpace.all fun c => c.toLower ∉ hexDigits) = true := by decide
  have hfilter : (raw.filter fun c => c ∉ whiteSpace) = raw := by
    rw [List.filter_eq_self]
    intro c hc
    rw [decide_eq_true_iff]
    intro hw
    exact of_decide_eq_true (List.all_eq_true.mp hblank c hw) (hdigits _ (List.mem_map.mpr ⟨c, hc, rfl⟩))
  unfold validateHex at hvalid
  simp only [hfilter] at hvalid
  split at hvalid
  · rename_i hok
    rw [toLowerCase, List.length_map]
    exact hok.2
  · cases hvalid

theorem toHostRange_valid {sha256 : Text → List Byte} {uriCreate : Text → Option URI} {config : HostRangeConfig}
    {range : HostRange URI} (h : toHostRange sha256 uriCreate config = .ok range) :
    validateHex config.start = .ok () ∧ validateHex config.end_ = .ok () := by
  unfold toHostRange at h
  split at h
  · cases h
  rename_i hstart
  split at h
  · cases h
  rename_i hend
  exact ⟨hstart, hend⟩

/-- The bounds of a configuration that is accepted are pairs of digits in lower case. They are hashes
    exactly if all that were written have 32 characters, which nothing checks; then a range has the
    same hashes as texts and as numbers. -/
theorem bounds_hash_iff (sha256 : Text → List Byte) (uriCreate : Text → Option URI) {configs : List HostRangeConfig}
    {ranges : List (HostRange URI)} (haccepted : configToHostRanges sha256 uriCreate configs = .ok ranges) :
    (∀ r ∈ ranges, IsHex r.start ∧ IsHex r.end_) ∧
    ((∀ r ∈ ranges, IsHash r.start ∧ IsHash r.end_) ↔ ∀ c ∈ configs, c.start.length = 32 ∧ c.end_.length = 32) ∧
    ((∀ c ∈ configs, c.start.length = 32 ∧ c.end_.length = 32) →
      ∀ h, IsHash h → ∀ r ∈ ranges, HostRange.hasText h r = HostRange.hasNumber h r) := by
  obtain ⟨hfrom, hto, hread, -⟩ := configToHostRanges_ok haccepted
  have hhash : (∀ c ∈ configs, c.start.length = 32 ∧ c.end_.length = 32) → ∀ r ∈ ranges, IsHash r.start ∧ IsHash r.end_ :=
    fun hsize => (configToHostRanges_tiles haccepted hsize).1
  refine ⟨fun r hr => ?_, ⟨fun hall c hc => ?_, hhash⟩, fun hsize h hh r hr => ?_⟩
  · obtain ⟨c, -, hcr⟩ := hfrom r hr
    obtain ⟨hs, he, -⟩ := toHostRange_ok hcr
    obtain ⟨hvs, hve⟩ := toHostRange_valid hcr
    obtain ⟨hrs, hre⟩ := hread r hr
    rw [hs] at hrs ⊢
    rw [he] at hre ⊢
    exact ⟨isHex_of_validateHex hvs hrs, isHex_of_validateHex hve hre⟩
  · obtain ⟨r, hr, hcr⟩ := hto c hc
    obtain ⟨hs, he, -⟩ := toHostRange_ok hcr
    obtain ⟨hstart, hend⟩ := hall r hr
    have hlen : ∀ raw : Text, (toLowerCase raw).length = raw.length := fun raw => List.length_map _
    exact ⟨by rw [← hlen, ← hs]; exact hstart.size, by rw [← hlen, ← he]; exact hend.size⟩
  · obtain ⟨hstart, hend⟩ := hhash hsize r hr
    rw [hh.hasText_eq hstart hend, hh.hasNumber_eq hstart hend]

def plainConfigs : List HostRangeConfig :=
  [⟨[['b']], '8' :: List.replicate 31 '0', List.replicate 32 'F'⟩, ⟨[['a']], List.replicate 32 '0', '7' :: List.replicate 31 'F'⟩]

def plainRanges : List (HostRange Text) :=
  [⟨[([], ['a'])], List.replicate 32 '0', '7' :: List.replicate 31 'f'⟩,
    ⟨[([], ['b'])], '8' :: List.replicate 31 '0', List.replicate 32 'f'⟩]

theorem bounds_hash_plain :
    (∀ r ∈ plainRanges, IsHash r.start ∧ IsHash r.end_) ∧
      ∀ r ∈ plainRanges, HostRange.hasText max r = HostRange.hasNumber max r := by
  have hbounds := bounds_hash_iff (fun _ => []) some (show configToHostRanges (fun _ => []) some plainConfigs = .ok plainRanges by rfl)
  have hsize : ∀ c ∈ plainConfigs, c.start.length = 32 ∧ c.end_.length = 32 := by decide
  exact ⟨hbounds.2.1.mpr hsize, hbounds.2.2 hsize max max_isHash⟩

/-- Two ranges that meet at bounds of two digits. -/
def shortConfigs : List HostRangeConfig :=
  [⟨[['a']], List.replicate 32 '0', ['7', 'f']⟩, ⟨[['b']], ['8', '0'], List.replicate 32 'f'⟩]

def shortRanges : List (HostRange Text) :=
  [⟨[([], ['a'])], List.replicate 32 '0', ['7', 'f']⟩, ⟨[([], ['b'])], ['8', '0'], List.replicate 32 'f'⟩]

/-- They are accepted. The hash that starts with `7f` and is zeros then is after the first range and
    before the second as a text, and in the second as a number. -/
theorem short_bounds_accepted :
    configToHostRanges (fun _ => []) some shortConfigs = .ok shortRanges ∧
      ¬(∀ r ∈ shortRanges, IsHash r.start ∧ IsHash r.end_) ∧
      IsHash ('7' :: 'f' :: List.replicate 30 '0') ∧
      shortRanges.map (HostRange.hasText ('7' :: 'f' :: List.replicate 30 '0')) = [false, false] ∧
      shortRanges.map (HostRange.hasNumber ('7' :: 'f' :: List.replicate 30 '0')) = [false, true] := by
  refine ⟨by rfl, fun h => ?_, ⟨rfl, fun c hc => ?_⟩, by decide, by decide⟩
  · have hsize : ['7', 'f'].length = 32 := (h _ List.mem_cons_self).2.size
    cases hsize
  · have hdigits : (('7' :: 'f' :: List.replicate 30 '0').all fun c => c ∈ hexDigits) = true := by decide
    exact of_decide_eq_true (List.all_eq_true.mp hdigits c hc)

end Bounds

/-! ## The hosts of a hash -/

section Lookup

variable {URI : Type}

open RateLimitServicePartitioner (putAll new lookup)

/-- Ranges that are put in the order of their ends stay in that order. -/
theorem putAll_ok {i : Nat} {ranges : List (HostRange URI)} {m : List (Text × HostRange URI)}
    (hhosts : ∀ r ∈ ranges, r.hostIdToAddrs ≠ []) (hbefore : ∀ e ∈ m, ∀ r ∈ ranges, e.1 < r.end_)
    (hincreasing : ranges.Pairwise fun r r' => r.end_ < r'.end_) :
    putAll i m ranges = .ok (m ++ ranges.map fun r => (r.end_, r)) := by
  induction ranges generalizing i m with
  | nil => simp [putAll]
  | cons r ranges ih =>
    obtain ⟨hr, hincreasing⟩ := List.pairwise_cons.mp hincreasing
    have hput : put r.end_ r m = m ++ [(r.end_, r)] := put_of_forall_lt fun e he => hbefore e he r (by simp)
    rw [putAll, if_pos (List.length_pos_iff.mpr (hhosts r (by simp))), hput,
      ih (fun r' hr' => hhosts r' (by simp [hr'])) ?_ hincreasing]
    · simp
    · intro e he r' hr'
      rcases List.mem_append.mp he with he | he
      · exact hbefore e he r' (by simp [hr'])
      · rw [List.mem_singleton.mp he]
        exact hr r' hr'

/-- A hash is in exactly one range of a configuration that is accepted, as a text and as a number, and
    that range's hosts are those of every user with the hash. -/
theorem hosts_partition (sha256 : Text → List Byte) (uriCreate : Text → Option URI) {configs : List HostRangeConfig}
    {ranges : List (HostRange URI)} (haccepted : configToHostRanges sha256 uriCreate configs = .ok ranges)
    (hsize : ∀ c ∈ configs, c.start.length = 32 ∧ c.end_.length = 32) (haddrs : ∀ c ∈ configs, c.addrs ≠ [])
    {h : Text} (hh : IsHash h) :
    ∃ range, ranges.filter (HostRange.hasText h) = [range] ∧ ranges.filter (HostRange.hasNumber h) = [range] ∧
      ∀ hashFunc, ∃ p, new ranges hashFunc = .ok p ∧
        ∀ userNumber, hashFunc userNumber = h → p.lookup userNumber = .ok range.hostIdToAddrs := by
  obtain ⟨hhash, htiles, hfrom⟩ := configToHostRanges_tiles haccepted hsize
  obtain ⟨range, hfilter, hfind⟩ := htiles.find (Nat.zero_le _) hh.number_lt
  have htext : ∀ r ∈ ranges, HostRange.hasText h r = decide (number r.start ≤ number h ∧ number h ≤ number r.end_) :=
    fun r hr => hh.hasText_eq (hhash r hr).1 (hhash r hr).2
  have hnumber : ∀ r ∈ ranges, HostRange.hasNumber h r = decide (number r.start ≤ number h ∧ number h ≤ number r.end_) :=
    fun r hr => hh.hasNumber_eq (hhash r hr).1 (hhash r hr).2
  have hceiling : ranges.find? (fun r => h ≤ r.end_) = some range := by
    rw [← hfind, ← List.head?_filter, ← List.head?_filter]
    congr 1
    refine List.filter_congr fun r hr => ?_
    simp only [hh.le_iff (hhash r hr).2]
  refine ⟨range, by rw [List.filter_congr htext, hfilter], by rw [List.filter_congr hnumber, hfilter], fun hashFunc => ?_⟩
  have hhosts : ∀ r ∈ ranges, r.hostIdToAddrs ≠ [] := fun r hr => by
    obtain ⟨c, hc, hr⟩ := hfrom r hr
    exact (toHostRange_ok hr).2.2 (haddrs c hc)
  have hincreasing : ranges.Pairwise fun r r' => r.end_ < r'.end_ :=
    htiles.increasing.imp_of_mem fun hr hr' hlt => ((hhash _ hr).2.lt_iff (hhash _ hr').2).mpr hlt
  have hne : ranges.length > 0 := List.length_pos_of_mem (List.mem_of_find?_eq_some hfind)
  have hput : putAll 0 [] ranges = .ok (ranges.map fun r => (r.end_, r)) := putAll_ok hhosts (by simp) hincreasing
  refine ⟨⟨ranges.map fun r => (r.end_, r), hashFunc⟩, by rw [new, if_pos hne, hput]; rfl, fun userNumber huser => ?_⟩
  have hentry : ceilingEntry (hashFunc userNumber) (ranges.map fun r => (r.end_, r)) = some (range.end_, range) := by
    rw [huser, ceilingEntry, List.find?_map]
    show (ranges.find? fun r => h ≤ r.end_).map _ = _
    rw [hceiling]
    rfl
  simp only [lookup, hentry]

/-- The last hash of all. -/
theorem hosts_partition_max :
    configToHostRanges (fun _ => []) some plainConfigs = .ok plainRanges ∧ IsHash max ∧
      ∃ range, plainRanges.filter (HostRange.hasText max) = [range] ∧ plainRanges.filter (HostRange.hasNumber max) = [range] ∧
        ∀ hashFunc, ∃ p, new plainRanges hashFunc = .ok p ∧
          ∀ userNumber, hashFunc userNumber = max → p.lookup userNumber = .ok range.hostIdToAddrs := by
  have haccepted : configToHostRanges (fun _ => []) some plainConfigs = .ok plainRanges := by rfl
  exact ⟨haccepted, max_isHash, hosts_partition (fun _ => []) some haccepted (by decide) (by decide) max_isHash⟩

end Lookup

end ContactDiscovery.Service.Partitioner
