import BootExtractor.Error
import BootExtractor.Lib.Bytes
import BootExtractor.Lib.Utf8

/-!
# The DNS client

The query for a host name and the addresses in a reply. A reply comes from the network:
every offset in it is the sum of lengths that it states itself, and each read of the
buffer is checked.
-/

namespace BootExtractor.Dns

open Bytes

/-- The record type of IPv4 addresses. -/
def typeA : Nat := 1
/-- The record type of IPv6 addresses. -/
def typeAaaa : Nat := 28

/-- An address by its octets. -/
inductive IpAddr where
  | v4 (octets : { b : Bytes // b.length = 4 })
  | v6 (octets : { b : Bytes // b.length = 16 })
  deriving DecidableEq, Repr

/-- A label of the question. A longer one keeps its bytes, but not its length. -/
def writeLabel (label : Str) : Bytes :=
  if label = [] then []
  else UInt8.ofNat (min (Utf8.encode label).length 63) :: Utf8.encode label

/-- The name of the question, up to the root label. -/
def writeName (host : Str) : Bytes := (host.splitOn '.').flatMap writeLabel ++ [0]

/-- What `build_query` writes before the name. -/
def queryHeader : Bytes :=
  toBe 2 0x4242 ++ toBe 2 0x0100 ++ toBe 2 1 ++ [0, 0, 0, 0, 0, 0]

/-- `build_query`. -/
def buildQuery (host : Str) (qtype : Nat) : Bytes :=
  queryHeader ++ writeName host ++ toBe 2 qtype ++ toBe 2 1

/-- `buf[pos]`. -/
def byteAt (buf : Bytes) (pos : Nat) : Except Fault UInt8 :=
  match buf[pos]? with
  | some b => .ok b
  | none => .error .panic

/-- `u16::from_be_bytes` of two neighbouring bytes. -/
def be16 (buf : Bytes) (pos : Nat) : Except Fault Nat := do
  let hi ← byteAt buf pos
  let lo ← byteAt buf (pos + 1)
  pure (be [hi, lo])

/-- The `n` octets at `pos`. -/
def octetsAt (n : Nat) (buf : Bytes) (pos : Nat) : Except Fault { b : Bytes // b.length = n } :=
  if h : pos + n ≤ buf.length then .ok ⟨slice buf pos n, length_slice_of_le h⟩
  else .error .panic

/-- The loop of `skip_name`. -/
def skipNameLoop (buf : Bytes) : Nat → Nat → Except Fault Nat
  | fuel, pos =>
    if pos < buf.length then
      match fuel with
      | 0 => .error .spin
      | fuel + 1 => do
        let len ← byteAt buf pos
        if len = 0 then pure (pos + 1)
        else if len &&& 0xc0 = 0xc0 then pure (pos + 2)
        else skipNameLoop buf fuel (pos + (1 + len.toNat))
    else pure pos

/-- `skip_name`. Every pass moves on by a byte at least, which bounds their number. -/
def skipName (buf : Bytes) (pos : Nat) : Except Fault Nat := skipNameLoop buf buf.length pos

/-- The address in the data of a record, if it is one. -/
def addressAt (buf : Bytes) (rtype rdlen pos : Nat) : Except Fault (Option IpAddr) :=
  if rtype = typeA ∧ rdlen = 4 then (fun o => some (.v4 o)) <$> octetsAt 4 buf pos
  else if rtype = typeAaaa ∧ rdlen = 16 then (fun o => some (.v6 o)) <$> octetsAt 16 buf pos
  else pure none

/-- The loop over the answers of `parse_answers`, with the records left. -/
def answersLoop (buf : Bytes) : Nat → Nat → List IpAddr → Except Fault (List IpAddr)
  | 0, _, out => pure out
  | n + 1, pos, out => do
    let pos ← skipName buf pos
    if pos + 10 > buf.length then pure out
    else
      let rtype ← be16 buf pos
      let rdlen ← be16 buf (pos + 8)
      let pos := pos + 10
      if pos + rdlen > buf.length then pure out
      else
        let address ← addressAt buf rtype rdlen pos
        answersLoop buf n (pos + rdlen) (out ++ address.toList)

/-- `parse_answers`. -/
def parseAnswers (buf : Bytes) : Except Fault (List IpAddr) :=
  if buf.length < 12 then pure []
  else do
    let ancount ← be16 buf 6
    let pos ← skipName buf 12
    answersLoop buf ancount (pos + 4) []

section Reads

variable {buf : Bytes} {pos : Nat}

private theorem byteAt_of_lt (h : pos < buf.length) : byteAt buf pos = .ok buf[pos] := by
  rw [byteAt, List.getElem?_eq_getElem h]

private theorem be16_of_lt (h : pos + 1 < buf.length) : ∃ n, be16 buf pos = .ok n := by
  rw [be16, byteAt_of_lt (Nat.lt_of_succ_lt h), byteAt_of_lt h]
  exact ⟨_, rfl⟩

/-- Bytes inside of the buffer can be taken. -/
theorem octetsAt_of_le {n : Nat} (h : pos + n ≤ buf.length) :
    octetsAt n buf pos = .ok ⟨slice buf pos n, length_slice_of_le h⟩ := dif_pos h

/-- The loop ends, at most the longest label behind the end. -/
theorem skipNameLoop_ok (fuel : Nat) (h : buf.length ≤ pos + fuel) :
    ∃ next, skipNameLoop buf fuel pos = .ok next ∧ next ≤ max pos (buf.length + 255) := by
  induction fuel generalizing pos with
  | zero =>
    rw [skipNameLoop, if_neg (show ¬ pos < buf.length from Nat.not_lt.mpr h)]
    exact ⟨pos, rfl, Nat.le_max_left _ _⟩
  | succ fuel ih =>
    rw [skipNameLoop]
    by_cases hlt : pos < buf.length
    · have hbyte : buf[pos].toNat < 256 := UInt8.toNat_lt _
      rw [if_pos hlt, byteAt_of_lt hlt]
      simp only [bind, Except.bind]
      split
      · exact ⟨pos + 1, rfl, by omega⟩
      · split
        · exact ⟨pos + 2, rfl, by omega⟩
        · obtain ⟨next, hrun, hle⟩ := @ih (pos + (1 + buf[pos].toNat)) (by omega)
          exact ⟨next, hrun, by omega⟩
    · rw [if_neg hlt]
      exact ⟨pos, rfl, Nat.le_max_left _ _⟩

/-- Skipping a name ends and reads only what is there. -/
theorem skipName_ok (buf : Bytes) (pos : Nat) :
    ∃ next, skipName buf pos = .ok next ∧ next ≤ max pos (buf.length + 255) :=
  skipNameLoop_ok buf.length (Nat.le_add_left _ _)

private theorem addressAt_ok {rtype rdlen : Nat} (h : pos + rdlen ≤ buf.length) :
    ∃ address, addressAt buf rtype rdlen pos = .ok address := by
  rw [addressAt]
  split
  · rename_i ha
    rw [octetsAt_of_le (ha.2 ▸ h)]
    exact ⟨_, rfl⟩
  · split
    · rename_i haaaa
      rw [octetsAt_of_le (haaaa.2 ▸ h)]
      exact ⟨_, rfl⟩
    · exact ⟨none, rfl⟩

/-- The walk over the records reads only what is there, by induction on the records left. -/
theorem answersLoop_ok (n pos : Nat) (out : List IpAddr) :
    ∃ ips, answersLoop buf n pos out = .ok ips := by
  induction n generalizing pos out with
  | zero => exact ⟨out, rfl⟩
  | succ n ih =>
    obtain ⟨start, hskip, -⟩ := skipName_ok buf pos
    rw [answersLoop, hskip]
    simp only [bind, Except.bind]
    split
    · exact ⟨out, rfl⟩
    · rename_i hfixed
      obtain ⟨rtype, hrtype⟩ := @be16_of_lt buf start (by omega)
      obtain ⟨rdlen, hrdlen⟩ := @be16_of_lt buf (start + 8) (by omega)
      simp only [hrtype, hrdlen]
      split
      · exact ⟨out, rfl⟩
      · rename_i hdata
        obtain ⟨address, haddress⟩ := @addressAt_ok buf (start + 10) rtype rdlen (by omega)
        simp only [haddress]
        exact ih _ _

/-- A reply never fails to parse. -/
theorem parseAnswers_ok (buf : Bytes) : ∃ ips, parseAnswers buf = .ok ips := by
  rw [parseAnswers]
  split
  · exact ⟨[], rfl⟩
  · rename_i hlen
    obtain ⟨ancount, hancount⟩ := @be16_of_lt buf 6 (by omega)
    obtain ⟨start, hskip, -⟩ := skipName_ok buf 12
    simp only [hancount, hskip, bind, Except.bind]
    exact answersLoop_ok _ _ _

end Reads

end BootExtractor.Dns
