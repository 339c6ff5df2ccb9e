import Chronicle.Bytes.Reader
import Mathlib.Algebra.GroupWithZero.Nat
import Mathlib.Data.List.Forall2

/-!
# Exact reading

A reader reads an item from its writing when it takes exactly the bytes of the
writing from the front of whatever comes behind it.  Writings that stand one
behind the other are then read by readers that stand one behind the other, so
that a format is read back as soon as each of its fields is.
-/

namespace Chronicle.Reader

variable {α β : Type}

/-- From the bytes `written`, whatever stands behind them, `reader` reads `a`. -/
def Reads
    (reader : Reader α)
    (written : Bytes)
    (a : α) :
    Prop :=
  ∀ rest, reader (written ++ rest) = .ok (a, rest)

theorem Reads.pure
    (a : α) :
    Reads (pure a) [] a := by
  intro rest
  rfl

theorem Reads.bind
    {first : Reader α}
    {next : α → Reader β}
    {front back : Bytes}
    {a : α}
    {b : β}
    (readFront : Reads first front a)
    (readBack : Reads (next a) back b) :
    Reads (first >>= next) (front ++ back) b := by
  intro rest
  have taken : first (front ++ (back ++ rest)) = .ok (a, back ++ rest) :=
    readFront (back ++ rest)
  have done : next a (back ++ rest) = .ok (b, rest) := readBack rest
  rw [List.append_assoc]
  show (first (front ++ (back ++ rest)) >>= fun reached => next reached.1 reached.2) = _
  rw [taken]
  exact done

/-- A reader that goes on without taking bytes reads what it goes on with. -/
theorem Reads.bind_nil
    {first : Reader α}
    {next : α → Reader β}
    {written : Bytes}
    {a : α}
    {b : β}
    (readFront : Reads first written a)
    (readBack : Reads (next a) [] b) :
    Reads (first >>= next) written b := by
  have joined := readFront.bind readBack
  rwa [List.append_nil] at joined

theorem Reads.map
    {reader : Reader α}
    {written : Bytes}
    {a : α}
    (read : Reads reader written a)
    (f : α → β) :
    Reads (f <$> reader) written (f a) := by
  intro rest
  have taken : reader (written ++ rest) = .ok (a, rest) := read rest
  show ((fun reached : α × Bytes => (f reached.1, reached.2)) <$> reader (written ++ rest)) = _
  rw [taken]
  rfl

theorem reads_take
    (written : Bytes) :
    Reads (take written.length) written written :=
  take_append rfl

theorem reads_byte
    (first : UInt8) :
    Reads byte [first] first := by
  intro rest
  rfl

theorem reads_unsigned
    {width n : Nat}
    (fits : n < LittleEndian.span width) :
    Reads (unsigned width) (LittleEndian.encode width n) n := by
  have bytes := (reads_take (LittleEndian.encode width n)).map LittleEndian.decode
  rwa [LittleEndian.length_encode, LittleEndian.decode_encode_of_lt fits] at bytes

theorem reads_signed
    {width : Nat}
    {n : Int}
    (low : -(LittleEndian.span width : Int) ≤ 2 * n)
    (high : 2 * n < (LittleEndian.span width : Int)) :
    Reads (signed width) (LittleEndian.encodeSigned width n) n := by
  have bytes := (reads_take (LittleEndian.encodeSigned width n)).map LittleEndian.decodeSigned
  rwa [LittleEndian.length_encodeSigned, LittleEndian.decodeSigned_encodeSigned low high] at bytes

theorem reads_unsigned_four
    {n : Nat}
    (fits : n < 4294967296) :
    Reads (unsigned 4) (LittleEndian.encode 4 n) n := by
  apply reads_unsigned
  rw [LittleEndian.span_four]
  exact fits

theorem reads_signed_four
    {n : Int}
    (low : -2147483648 ≤ n)
    (high : n < 2147483648) :
    Reads (signed 4) (LittleEndian.encodeSigned 4 n) n := by
  apply reads_signed
  · rw [LittleEndian.span_four]
    omega
  · rw [LittleEndian.span_four]
    omega

theorem reads_signed_eight
    {n : Int}
    (low : -9223372036854775808 ≤ n)
    (high : n < 9223372036854775808) :
    Reads (signed 8) (LittleEndian.encodeSigned 8 n) n := by
  apply reads_signed
  · rw [LittleEndian.span_eight]
    omega
  · rw [LittleEndian.span_eight]
    omega

/-- Items that are each read from their writings are read from all of these together. -/
theorem reads_many
    {item : Reader α}
    {items : List α}
    {writings : List Bytes}
    (each : List.Forall₂ (fun a written => Reads item written a) items writings) :
    Reads (many item items.length) writings.flatten items := by
  induction each with
  | nil => exact Reads.pure []
  | cons first others ih =>
      rw [List.flatten_cons]
      exact first.bind (ih.bind_nil (Reads.pure _))

/-- A list of writings that came about item by item. -/
theorem forall₂_of_mapM
    {encode : α → Except Fault β}
    {items : List α}
    {writings : List β}
    (written : items.mapM encode = .ok writings) :
    List.Forall₂ (fun a bytes => encode a = .ok bytes) items writings := by
  induction items generalizing writings with
  | nil =>
      cases written
      exact .nil
  | cons a rest ih =>
      rw [List.mapM_cons] at written
      cases first : encode a with
      | error fault =>
          rw [first] at written
          cases written
      | ok bytes =>
          cases others : rest.mapM encode with
          | error fault =>
              rw [first, others] at written
              cases written
          | ok more =>
              rw [first, others] at written
              cases written
              exact .cons first (ih others)

/-- A list of writings that did not come about fails with one of its items. -/
theorem exists_of_mapM_eq_error
    {encode : α → Except Fault β}
    {items : List α}
    {fault : Fault}
    (failed : items.mapM encode = .error fault) :
    ∃ a ∈ items, encode a = .error fault := by
  induction items with
  | nil => cases failed
  | cons a rest ih =>
      rw [List.mapM_cons] at failed
      cases first : encode a with
      | error other =>
          rw [first] at failed
          cases failed
          exact ⟨a, List.mem_cons_self, first⟩
      | ok bytes =>
          cases others : rest.mapM encode with
          | error other =>
              rw [first, others] at failed
              cases failed
              rcases ih others with ⟨b, member, fails⟩
              exact ⟨b, List.mem_cons_of_mem a member, fails⟩
          | ok more =>
              rw [first, others] at failed
              cases failed

/-- Where each item has a writing, the list of them has one. -/
theorem exists_mapM
    {encode : α → Except Fault β}
    {items : List α}
    (each : ∀ a ∈ items, ∃ bytes, encode a = .ok bytes) :
    ∃ writings, items.mapM encode = .ok writings := by
  induction items with
  | nil => exact ⟨[], rfl⟩
  | cons a rest ih =>
      rcases each a List.mem_cons_self with ⟨bytes, first⟩
      rcases ih fun b member => each b (List.mem_cons_of_mem a member) with ⟨more, others⟩
      refine ⟨bytes :: more, ?_⟩
      rw [List.mapM_cons, first, others]
      rfl

end Chronicle.Reader
