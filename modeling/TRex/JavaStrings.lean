import TRex.JavaUnmarshaller

/-!
# Strings between Java clients

`Marshaller.encode(String)` keeps the low byte of each character, `Unmarshaller.decodeString` makes
a character of each byte without a mask, so that the sign of the byte is extended. `roundTrips_iff`
says which strings of one-byte characters survive: the ASCII ones. -/

open Wire TRex.Java.Marshaller TRex.Java.Unmarshaller

namespace TRex.Java

/-- The characters have one byte each. -/
def IsLatin1 (s : CString) : Prop := ∀ c ∈ s, c.toNat < 256

/-- Wherever the string lies in a packet, it is read back, the index moves on by `getNumBytes`, and
what follows is left to read. -/
def RoundTrips (source : CString) : Prop :=
  ∀ before rest : Bytes,
    let packet := before ++ (encodeString source ++ rest)
    let next := before.length + getNumBytesString source
    decodeString (packet.drop before.length) = some (source, packet.drop next) ∧
      packet.drop next = rest

/-! ## One character -/

theorem toNat_ofNat_of_valid {n : Nat} (valid : n.isValidChar) : (Char.ofNat n).toNat = n := by
  rw [Char.ofNat, dif_pos valid]
  rfl

/-- What becomes of a character. -/
def resent (c : Char) : Char := decodeChar (UInt8.ofNat c.toNat)

theorem toNat_resent {c : Char} (latin1 : c.toNat < 256) :
    (resent c).toNat = if c.toNat < 128 then c.toNat else 0xff00 + c.toNat := by
  rw [resent, decodeChar, UInt8.toNat_ofNat', Nat.mod_eq_of_lt latin1]
  apply toNat_ofNat_of_valid
  split
  case isTrue ascii => exact .inl (by omega)
  case isFalse high => exact .inr ⟨by omega, by omega⟩

theorem resent_eq_iff {c : Char} (latin1 : c.toNat < 256) : resent c = c ↔ c.toNat < 128 := by
  constructor
  · intro same
    have code := toNat_resent latin1
    rw [same] at code
    split at code
    case isTrue ascii => exact ascii
    case isFalse => omega
  · intro ascii
    rw [resent, decodeChar, UInt8.toNat_ofNat', Nat.mod_eq_of_lt latin1, if_pos ascii,
      Char.ofNat_toNat]

/-! ## Strings -/

/-- What is read, whatever the characters are. -/
theorem reads_resent {source : CString} (short : source.length < 2 ^ 31) :
    Reads decodeString (encodeString source) (source.map resent) := by
  apply (reads_count short).bind
  apply Reads.require (by omega)
  have read := (Reads.take (source.map fun c => UInt8.ofNat c.toNat)).map fun bytes =>
    bytes.map decodeChar
  rw [List.map_map, List.length_map] at read
  exact read

theorem roundTrips_iff_resent {source : CString} (short : source.length < 2 ^ 31) :
    RoundTrips source ↔ source.map resent = source := by
  have moved : ∀ before rest : Bytes, (before ++ (encodeString source ++ rest)).drop
      (before.length + getNumBytesString source) = rest := by
    intro before rest
    rw [← length_encodeString, List.drop_length_add_append, List.drop_left]
  constructor
  · intro trips
    have read := (trips [] []).1
    rw [List.length_nil, List.drop_zero, List.nil_append, reads_resent short] at read
    exact (Prod.mk.inj (Option.some.inj read)).1
  · intro same before rest
    refine ⟨?_, moved before rest⟩
    rw [moved, List.drop_left, reads_resent short, same]

/-- A string of one-byte characters is read back exactly if it is an ASCII string. -/
theorem roundTrips_iff (source : CString) (latin1 : IsLatin1 source)
    (short : source.length < 2 ^ 31) : RoundTrips source ↔ IsAscii source := by
  rw [roundTrips_iff_resent short]
  constructor
  · intro same c mem
    have fixed : ∀ d ∈ source, resent d = id d :=
      List.map_eq_map_iff.mp (same.trans source.map_id.symm)
    exact (resent_eq_iff (latin1 c mem)).mp (fixed c mem)
  · intro ascii
    refine (List.map_congr_left fun c mem => ?_).trans source.map_id
    exact (resent_eq_iff (latin1 c mem)).mpr (ascii c mem)

/-- An area of a city with an accent. -/
def accented : CString := ['N', 'o', 'r', 'd', 'é']

theorem roundTrips_iff_area : RoundTrips ['N', 'o', 'r', 'd'] ↔ IsAscii ['N', 'o', 'r', 'd'] :=
  roundTrips_iff ['N', 'o', 'r', 'd'] (by simp [IsLatin1]) (by decide)

theorem accented_not_roundTrips : ¬ RoundTrips accented := by
  intro trips
  have short : accented.length < 2 ^ 31 := by decide
  have same := (roundTrips_iff_resent short).mp trips
  exact absurd same (by decide)

end TRex.Java
