import SystemProgramming.Bytes
import SystemProgramming.Printf
import SystemProgramming.Strings

/-!
# A hex dump, and what can be read from it

`hex_dump` of `mmap_file_simple` (`ch18/`) prints sixteen bytes of data a line: a label,
which is the offset of the first of them, two hexadecimal digits for each, and the
characters themselves where they can be printed. All lines are put together in one buffer,
in place: a line is cleared when its successor begins, and printed when it is full or the
data has ended.

What is printed is read back here line by line (`SystemProgramming.HexDump.readRow`). The
columns are always right. The label is not: it goes through a field of six digits, and of
an offset with more the last are cut off, so the dump is faithful exactly if its last
label has six digits at most (`SystemProgramming.HexDump.faithful_iff`).
-/

namespace SystemProgramming

open Bytes Printf Strings

namespace HexDump

/-! ### The function -/

/-- The size of `temp`. -/
def MAX_NUMERALS : ℕ := 20

/-- The plus sign. -/
def plus : UInt8 := 43

/-- The ruler, with its newline. -/
def ruler : List UInt8 :=
  ascii "        +0          +4          +8          +c            0   4   8   c   " ++ [newline]

/-- `%p` of an address. -/
def pointer (address : ℕ) : List UInt8 :=
  if address = 0 then ascii "(nil)" else ascii "0x" ++ digits 16 address

/-- What is printed before the ruler. -/
def heading (address : ℕ) (size : Int32) (caption : Option (List UInt8)) (verbose : Bool) :
    List UInt8 :=
  match verbose, caption with
  | true, some c =>
    ascii "---------> " ++ c ++ ascii " <--------- (" ++ decimal size.toInt ++
      ascii " bytes from " ++ pointer address ++ ascii ")" ++ [newline]
  | _, _ => []

/-- What `temp` holds for an offset. -/
def temp (offset : Int32) : List UInt8 :=
  snprintf MAX_NUMERALS (plus :: zeroDecimal 6 offset.toInt)

/-- The character that stands for a byte. -/
def shown (b : UInt8) : UInt8 := if 31 < b ∧ b < 127 then b else 46

/-- The variables of the loop: the line buffer, the place in the line, what has been
printed, and the places of the data that have been read. -/
@[ext] structure Dump where
  buffer : List UInt8
  j : ℕ
  out : List UInt8
  reads : List ℕ

/-- The line is cleared, up to its newline. -/
def clear (buffer : List UInt8) : List UInt8 :=
  overwrite buffer 0 (List.replicate (58 + 16) Printf.blank)

/-- Before the loop. -/
def begin (offset : Int32) : Dump :=
  let buffer := clear (List.replicate 128 0)
  let buffer := overwrite buffer (58 + 16) [newline]
  let buffer := overwrite buffer (58 + 17) [0]
  let buffer := overwrite buffer 0 [plus]
  -- the six characters behind the sign, one by one in the source
  ⟨overwrite buffer 1 (((temp offset).drop 1).take 6), 0, [], []⟩

/-- The line is printed. -/
def Dump.print (d : Dump) : Dump := { d with out := d.out ++ cstr d.buffer }

/-- A line that is full is printed, and the next one begins with the offset of `data[i]`;
the sum is one of type `int`. -/
def Dump.turn (offset : Int32) (i : ℕ) (d : Dump) : Dump :=
  if d.j = 16 then
    { d.print with buffer := overwrite (clear d.buffer) 0 ((temp (Int32.ofNat i + offset)).take 7)
                   j := 0 }
  else d

/-- The byte `data[i]` is put in its two columns. -/
def Dump.put (data : ℕ → UInt8) (i : ℕ) (d : Dump) : Dump :=
  let temp := snprintf MAX_NUMERALS (zeros 2 (digits 16 (data i).toNat))
  let buffer := overwrite d.buffer (8 + d.j * 3) (temp.take 2)
  { d with buffer := overwrite buffer (58 + d.j) [shown (data i)]
           j := d.j + 1
           reads := d.reads ++ [i] }

/-- The loop over the first `n` bytes of the data. -/
def loop (data : ℕ → UInt8) (offset : Int32) (n : ℕ) : Dump :=
  (List.range n).foldl (fun d i => (d.turn offset i).put data i) (begin offset)

/-- The whole loop, and the line that is left at its end. -/
def dumped (data : ℕ → UInt8) (offset size : Int32) : Dump :=
  let d := loop data offset size.toInt.toNat
  if d.j ≠ 0 then d.print else d

/-- `hex_dump`: what it prints of the memory `data`, which lies at `address`. -/
def hexDump (data : ℕ → UInt8) (address : ℕ) (offset size : Int32)
    (caption : Option (List UInt8)) (verbose : Bool) : List UInt8 :=
  heading address size caption verbose ++ ruler ++ (dumped data offset size).out

/-! ### The lines -/

/-- The offset that a line begins with. -/
def lineOffset (offset : Int32) (k : ℕ) : Int32 := Int32.ofNat (16 * k) + offset

/-- The label of an offset. -/
def label (x : Int32) : List UInt8 := (temp x).take 7

/-- What the columns of a line are for, when these are its bytes. -/
def cells (bs : List UInt8) : List (Option UInt8) :=
  bs.map some ++ List.replicate (16 - bs.length) none

/-- A hexadecimal column, with the blank behind it. -/
def hexCell : Option UInt8 → List UInt8
  | some b => zeros 2 (digits 16 b.toNat) ++ [Printf.blank]
  | none => List.replicate 3 Printf.blank

/-- A character of the last column. -/
def asciiCell : Option UInt8 → UInt8
  | some b => shown b
  | none => Printf.blank

/-- A line, without its newline. -/
def line (x : Int32) (bs : List UInt8) : List UInt8 :=
  label x ++ [Printf.blank] ++ (cells bs).flatMap hexCell ++ List.replicate 2 Printf.blank ++
    (cells bs).map asciiCell

/-- The buffer that holds a line. -/
def buffer (x : Int32) (bs : List UInt8) : List UInt8 :=
  line x bs ++ (newline :: List.replicate 53 0)

/-- What stands in the buffer before the column of the next byte. -/
def beforeHex (x : Int32) (bs : List UInt8) : List UInt8 :=
  label x ++ [Printf.blank] ++ (bs.map some).flatMap hexCell

/-- What stands behind its blank, and before its character. -/
def between (bs : List UInt8) : List UInt8 :=
  (List.replicate (15 - bs.length) none).flatMap hexCell ++ List.replicate 2 Printf.blank ++
    (bs.map some).map asciiCell

/-- What stands behind its character. -/
def behind (bs : List UInt8) : List UInt8 :=
  (List.replicate (15 - bs.length) none).map asciiCell ++ (newline :: List.replicate 53 0)

/-- The first `j` bytes of the line `k`. -/
def bytes (data : ℕ → UInt8) (k j : ℕ) : List UInt8 := slice (fun i => data (16 * k + i)) j

/-- The line `k`, which has `j` bytes. -/
def lineOf (data : ℕ → UInt8) (offset : Int32) (k j : ℕ) : List UInt8 :=
  line (lineOffset offset k) (bytes data k j)

/-- The variables of the loop when there are `j` bytes in the line `k`. -/
def state (data : ℕ → UInt8) (offset : Int32) (k j : ℕ) : Dump where
  buffer := buffer (lineOffset offset k) (bytes data k j)
  j := j
  out := (List.range k).flatMap fun k => lineOf data offset k 16 ++ [newline]
  reads := List.range (16 * k + j)

section Loop

variable {data : ℕ → UInt8} {offset x y : Int32} {bs : List UInt8} {b : UInt8} {k j n : ℕ}

theorem label_eq (x : Int32) : label x = plus :: (zeroDecimal 6 x.toInt).take 6 := by
  have hlen := le_length_zeroDecimal 6 x.toInt
  rw [label, temp, take_snprintf (by decide) (by rw [List.length_cons]; omega),
    List.take_succ_cons]

theorem length_label (x : Int32) : (label x).length = 7 := by
  have hlen := le_length_zeroDecimal 6 x.toInt
  rw [label_eq, List.length_cons, List.length_take]
  omega

theorem length_hexDigits (b : UInt8) : (zeros 2 (digits 16 b.toNat)).length = 2 := by
  have hlt : b.toNat < 16 ^ 2 := b.toNat_lt
  have hlen := (length_digits_le_iff (b := 16) (by decide) (by decide)).mpr hlt
  rw [length_zeros]
  omega

theorem length_hexCell (o : Option UInt8) : (hexCell o).length = 3 := by
  cases o with
  | none => rfl
  | some b => rw [hexCell, List.length_append, length_hexDigits]; rfl

theorem range_label {c : UInt8} (hc : c ∈ label x) : 32 ≤ c.toNat := by
  rw [label_eq] at hc
  rcases List.mem_cons.mp hc with rfl | hmem
  · decide
  · exact range_zeroDecimal (List.mem_of_mem_take hmem)

theorem range_hexCell {o : Option UInt8} {c : UInt8} (hc : c ∈ hexCell o) : 32 ≤ c.toNat := by
  have hblank : Printf.blank.toNat = 32 := rfl
  cases o with
  | none => exact List.eq_of_mem_replicate hc ▸ hblank.ge
  | some b =>
    rcases List.mem_append.mp hc with hmem | hone
    · exact range_zeros (by decide) (by decide) hmem
    · exact List.mem_singleton.mp hone ▸ hblank.ge

theorem range_asciiCell (o : Option UInt8) : 32 ≤ (asciiCell o).toNat := by
  cases o with
  | none => exact le_rfl
  | some b =>
    rw [asciiCell, shown]
    split_ifs with h
    · exact UInt8.lt_iff_toNat_lt.mp h.1
    · decide

theorem length_flatMap_hexCell (l : List (Option UInt8)) :
    (l.flatMap hexCell).length = 3 * l.length := by
  induction l with
  | nil => rfl
  | cons o l ih =>
    rw [List.flatMap_cons, List.length_append, length_hexCell, ih, List.length_cons]
    ring

theorem length_cells (h : bs.length ≤ 16) : (cells bs).length = 16 := by
  rw [cells, List.length_append, List.length_map, List.length_replicate]
  omega

theorem length_line (h : bs.length ≤ 16) : (line x bs).length = 58 + 16 := by
  simp only [line, List.length_append, length_label, length_flatMap_hexCell, List.length_map,
    length_cells h, List.length_replicate, List.length_singleton]

/-- The columns of a line that is not full. -/
theorem cells_of_lt (h : bs.length < 16) :
    cells bs = bs.map some ++ none :: List.replicate (15 - bs.length) none := by
  rw [cells, ← List.replicate_succ]
  congr 2
  omega

theorem cells_concat (h : bs.length < 16) :
    cells (bs ++ [b]) = bs.map some ++ some b :: List.replicate (15 - bs.length) none := by
  have hlen : 16 - (bs ++ [b]).length = 15 - bs.length := by
    rw [List.length_append, List.length_singleton]
    omega
  rw [cells, hlen, List.map_append, List.append_assoc]
  rfl

@[simp] theorem length_bytes : (bytes data k j).length = j := length_slice _ _

theorem bytes_succ : bytes data k (j + 1) = bytes data k j ++ [data (16 * k + j)] := by
  rw [bytes, bytes, slice, slice, List.range_succ, List.map_append]
  rfl

/-- A line is cleared, and gets its label. -/
theorem relabel (h : bs.length ≤ 16) :
    overwrite (clear (buffer x bs)) 0 (label y) = buffer y [] := by
  have hclear : clear (buffer x bs) =
      [] ++ List.replicate 7 Printf.blank ++
        (List.replicate 67 Printf.blank ++ (newline :: List.replicate 53 0)) := by
    have hover := overwrite_append [] (line x bs) (newline :: List.replicate 53 0)
      (d := List.replicate (58 + 16) Printf.blank) rfl (by
        rw [length_line h, List.length_replicate])
    exact hover
  have hlabel : (label y).length = (List.replicate 7 Printf.blank).length := length_label y
  rw [hclear, overwrite_append [] _ _ (show 0 = ([] : List UInt8).length from rfl) hlabel,
    List.nil_append, buffer, line]
  simp only [List.append_assoc]
  rfl

/-- The buffer before the label is put in it. -/
theorem buffer_begin : overwrite (overwrite (overwrite (clear (List.replicate 128 0)) (58 + 16)
    [newline]) (58 + 17) [0]) 0 [plus] = [plus] ++ List.replicate 6 Printf.blank ++
      (List.replicate 67 Printf.blank ++ (newline :: List.replicate 53 0)) := by
  decide +kernel

theorem begin_eq (data : ℕ → UInt8) (offset : Int32) : begin offset = state data offset 0 0 := by
  have hlabel : ((temp offset).drop 1).take 6 = (label offset).drop 1 := by
    rw [label, List.drop_take]
  have hcons : label offset = [plus] ++ (label offset).drop 1 := by
    rw [label_eq]
    rfl
  have hlen : ((label offset).drop 1).length = (List.replicate 6 Printf.blank).length := by
    rw [List.length_drop, length_label]
    rfl
  have hzero : lineOffset offset 0 = offset := Int32.zero_add offset
  have hbuffer : overwrite ([plus] ++ List.replicate 6 Printf.blank ++
      (List.replicate 67 Printf.blank ++ (newline :: List.replicate 53 0))) 1
        ((label offset).drop 1) = buffer (lineOffset offset 0) (bytes data 0 0) := by
    rw [overwrite_append [plus] _ _ (show 1 = [plus].length from rfl) hlen, ← hcons, hzero, buffer,
      line]
    simp only [List.append_assoc]
    rfl
  rw [state, ← hbuffer, begin, buffer_begin, hlabel]
  rfl

theorem length_beforeHex : (beforeHex x bs).length = 8 + bs.length * 3 := by
  simp only [beforeHex, List.length_append, length_label, length_flatMap_hexCell, List.length_map,
    List.length_singleton]
  omega

theorem length_between (h : bs.length < 16) : (between bs).length = 47 - 2 * bs.length := by
  simp only [between, List.length_append, length_flatMap_hexCell, List.length_map,
    List.length_replicate]
  omega

/-- The columns that the next byte is put in are blank. -/
theorem buffer_of_lt (h : bs.length < 16) : buffer x bs =
    beforeHex x bs ++ List.replicate 2 Printf.blank ++
      ([Printf.blank] ++ between bs ++ [Printf.blank] ++ behind bs) := by
  simp only [buffer, line, cells_of_lt h, beforeHex, between, behind, List.flatMap_append,
    List.flatMap_cons, List.map_append, List.map_cons, List.append_assoc, List.cons_append,
    hexCell, asciiCell, List.nil_append]
  rfl

theorem buffer_concat (h : bs.length < 16) : buffer x (bs ++ [b]) =
    beforeHex x bs ++ zeros 2 (digits 16 b.toNat) ++ [Printf.blank] ++ between bs ++ [shown b] ++
      behind bs := by
  simp only [buffer, line, cells_concat h, beforeHex, between, behind, List.flatMap_append,
    List.flatMap_cons, List.map_append, List.map_cons, List.append_assoc, List.cons_append,
    hexCell, asciiCell, List.nil_append]

/-- **A byte is put in its two columns** of a line that is not full. -/
theorem put_buffer (h : bs.length < 16) :
    overwrite (overwrite (buffer x bs) (8 + bs.length * 3) (zeros 2 (digits 16 b.toNat)))
      (58 + bs.length) [shown b] = buffer x (bs ++ [b]) := by
  have hhex : (zeros 2 (digits 16 b.toNat)).length = (List.replicate 2 Printf.blank).length :=
    length_hexDigits b
  have hascii : 58 + bs.length =
      (beforeHex x bs ++ zeros 2 (digits 16 b.toNat) ++ [Printf.blank] ++ between bs).length := by
    simp only [List.length_append, length_beforeHex, length_hexDigits, length_between h,
      List.length_singleton]
    omega
  have hmid : beforeHex x bs ++ zeros 2 (digits 16 b.toNat) ++
      ([Printf.blank] ++ between bs ++ [Printf.blank] ++ behind bs) =
        beforeHex x bs ++ zeros 2 (digits 16 b.toNat) ++ [Printf.blank] ++ between bs ++
          [Printf.blank] ++ behind bs := by
    simp only [List.append_assoc]
  rw [buffer_of_lt h, overwrite_append _ _ _ length_beforeHex.symm hhex, hmid,
    overwrite_append (d := [shown b]) _ [Printf.blank] _ hascii rfl, buffer_concat h]

theorem put_state (data : ℕ → UInt8) (offset : Int32) (k : ℕ) (h : j < 16) :
    (state data offset k j).put data (16 * k + j) = state data offset k (j + 1) := by
  have hlen : (bytes data k j).length = j := length_bytes
  have hhex : (snprintf MAX_NUMERALS (zeros 2 (digits 16 (data (16 * k + j)).toNat))).take 2 =
      zeros 2 (digits 16 (data (16 * k + j)).toNat) := by
    rw [take_snprintf (by decide) (length_hexDigits _).ge, List.take_of_length_le]
    exact (length_hexDigits _).le
  have hbuffer := put_buffer (x := lineOffset offset k) (b := data (16 * k + j)) (hlen.trans_lt h)
  rw [hlen, ← bytes_succ] at hbuffer
  simp only [Dump.put, state, hhex, hbuffer, ← List.range_succ]
  rfl

/-- A line that is not full goes on. -/
theorem turn_of_lt (h : j < 16) (i : ℕ) :
    (state data offset k j).turn offset i = state data offset k j :=
  if_neg (Nat.ne_of_lt h)

/-- What can stand in a line: neither a newline nor a NUL. -/
theorem range_line {c : UInt8} (hc : c ∈ line x bs) : 32 ≤ c.toNat := by
  have hblank : Printf.blank.toNat = 32 := rfl
  rw [line, List.mem_append, List.mem_append, List.mem_append, List.mem_append] at hc
  rcases hc with (((hlabel | hone) | hhex) | htwo) | hascii
  · exact range_label hlabel
  · exact List.mem_singleton.mp hone ▸ hblank.ge
  · obtain ⟨o, -, ho⟩ := List.mem_flatMap.mp hhex
    exact range_hexCell ho
  · exact List.eq_of_mem_replicate htwo ▸ hblank.ge
  · obtain ⟨o, -, rfl⟩ := List.mem_map.mp hascii
    exact range_asciiCell o

theorem newline_notMem_line (x : Int32) (bs : List UInt8) : newline ∉ line x bs := fun h =>
  absurd (range_line h) (by decide)

/-- What `printf` takes of the buffer. -/
theorem cstr_buffer (x : Int32) (bs : List UInt8) :
    cstr (buffer x bs) = line x bs ++ [newline] := by
  have hzero : (0 : UInt8) ∉ line x bs ++ [newline] := by
    rw [List.mem_append, not_or]
    exact ⟨fun h => absurd (range_line h) (by decide), by decide⟩
  have hbuffer : buffer x bs = line x bs ++ [newline] ++ 0 :: List.replicate 52 0 := by
    rw [buffer, List.append_assoc]
    rfl
  rw [hbuffer, cstr_append_zero, cstr_eq_self hzero]

/-- **A line that is full** is printed, and its successor begins. -/
theorem turn_state (data : ℕ → UInt8) (offset : Int32) (k : ℕ) :
    (state data offset k 16).turn offset (16 * (k + 1)) = state data offset (k + 1) 0 := by
  have hlen : (bytes data k 16).length ≤ 16 := length_bytes.le
  have hbuffer := relabel (x := lineOffset offset k) (y := lineOffset offset (k + 1)) hlen
  have hout : (List.range (k + 1)).flatMap (fun k => lineOf data offset k 16 ++ [newline]) =
      (List.range k).flatMap (fun k => lineOf data offset k 16 ++ [newline]) ++
        cstr (buffer (lineOffset offset k) (bytes data k 16)) := by
    rw [List.range_succ, List.flatMap_append, List.flatMap_singleton, cstr_buffer]
    rfl
  rw [Dump.turn, if_pos (show (state data offset k 16).j = 16 from rfl)]
  exact Dump.ext hbuffer rfl hout.symm rfl

/-- **The loop**: after `n` bytes, those of the line that has been begun are in the buffer. -/
theorem loop_succ (n : ℕ) :
    loop data offset (n + 1) = state data offset (n / 16) (n % 16 + 1) := by
  have hstep : ∀ n, loop data offset (n + 1) =
      ((loop data offset n).turn offset n).put data n := fun n => by
    rw [loop, List.range_succ, List.foldl_append]
    rfl
  induction n with
  | zero =>
    have hput := put_state data offset 0 (show 0 < 16 by decide)
    rw [hstep, loop, List.range_zero, List.foldl_nil, begin_eq data, turn_of_lt (by decide)]
    exact hput
  | succ n ih =>
    rw [hstep, ih]
    rcases Nat.lt_or_ge (n % 16 + 1) 16 with hlt | hge
    · have hput := put_state data offset (n / 16) hlt
      have hn : 16 * (n / 16) + (n % 16 + 1) = n + 1 := by omega
      have hdiv : (n + 1) / 16 = n / 16 := by omega
      have hmod : (n + 1) % 16 = n % 16 + 1 := by omega
      rw [hn] at hput
      rw [turn_of_lt hlt, hput, hdiv, hmod]
    · have hput := put_state data offset (n / 16 + 1) (show 0 < 16 by decide)
      have hn : 16 * (n / 16 + 1) = n + 1 := by omega
      have hfull : n % 16 + 1 = 16 := by omega
      have hdiv : (n + 1) / 16 = n / 16 + 1 := by omega
      have hmod : (n + 1) % 16 = 0 := by omega
      have hturn := turn_state data offset (n / 16)
      rw [hn] at hput hturn
      rw [hfull, hturn, hdiv, hmod]
      exact hput

/-- How many bytes the line `k` of `n` bytes has. -/
def lineLength (n k : ℕ) : ℕ := min 16 (n - 16 * k)

/-- **What is printed of the data**: one line for each sixteen bytes, and one for what is
left. -/
theorem out_dumped (data : ℕ → UInt8) (offset size : Int32) :
    (dumped data offset size).out = (List.range ((size.toInt.toNat + 15) / 16)).flatMap fun k =>
      lineOf data offset k (lineLength size.toInt.toNat k) ++ [newline] := by
  rw [dumped]
  cases hn : size.toInt.toNat with
  | zero => rw [loop, List.range_zero, List.foldl_nil, begin_eq data]; rfl
  | succ n =>
    have hcount : (n + 1 + 15) / 16 = n / 16 + 1 := by omega
    have hlast : lineLength (n + 1) (n / 16) = n % 16 + 1 := by
      rw [lineLength]
      omega
    have hfull : ∀ k ∈ List.range (n / 16), lineLength (n + 1) k = 16 := by
      intro k hk
      have hlt := List.mem_range.mp hk
      rw [lineLength]
      omega
    have hmap : (List.range (n / 16)).flatMap
        (fun k => lineOf data offset k (lineLength (n + 1) k) ++ [newline]) =
          (List.range (n / 16)).flatMap fun k => lineOf data offset k 16 ++ [newline] := by
      refine List.flatMap_congr fun k hk => ?_
      rw [hfull k hk]
    have hj : (state data offset (n / 16) (n % 16 + 1)).j ≠ 0 := Nat.succ_ne_zero _
    rw [loop_succ, if_pos hj, hcount, List.range_succ, List.flatMap_append,
      List.flatMap_singleton, hlast, hmap]
    exact congrArg _ (cstr_buffer _ _)

/-- **The bytes that are read** are the first ones, as many as the size says. -/
theorem reads_dumped (data : ℕ → UInt8) (offset size : Int32) :
    (dumped data offset size).reads = List.range size.toInt.toNat := by
  rw [dumped]
  cases hn : size.toInt.toNat with
  | zero => rw [loop, List.range_zero, List.foldl_nil, begin_eq data]; rfl
  | succ n =>
    have hsplit : 16 * (n / 16) + (n % 16 + 1) = n + 1 := by omega
    have hj : (state data offset (n / 16) (n % 16 + 1)).j ≠ 0 := Nat.succ_ne_zero _
    rw [loop_succ, if_pos hj]
    exact congrArg List.range hsplit

end Loop

/-! ### What can be read -/

/-- What is read of a hexadecimal column. -/
inductive Column where
  /-- It is blank. -/
  | blank
  /-- It is this byte. -/
  | byte (v : ℕ)
  /-- It is neither. -/
  | other
  deriving DecidableEq, Repr

/-- What is read of a line. -/
@[ext] structure Row where
  /-- The offset that the label denotes, if it denotes one. -/
  label : Option ℕ
  hex : List Column
  ascii : List UInt8
  deriving DecidableEq, Repr

/-- A column of three characters is read. -/
def readColumn (t : List UInt8) : Column :=
  match read 16 (t.take 2) with
  | some v => if t.drop 2 = [Printf.blank] then .byte v else .other
  | none => if t = List.replicate 3 Printf.blank then .blank else .other

/-- The first `n` columns of a text are read. -/
def readColumns : ℕ → List UInt8 → List Column
  | 0, _ => []
  | n + 1, t => readColumn (t.take 3) :: readColumns n (t.drop 3)

/-- A label is read: a plus sign and a number. -/
def readLabel (t : List UInt8) : Option ℕ :=
  if t.head? = some plus then read 10 (t.drop 1) else none

/-- **A line is read**, by its fields. -/
def readRow (t : List UInt8) : Row where
  label := readLabel (t.take 7)
  hex := readColumns 16 (t.drop 8)
  ascii := t.drop 58

/-- What should be read of the line `k` of `n` bytes of data. -/
def rowOf (data : ℕ → UInt8) (offset n k : ℕ) : Row where
  label := some (offset + 16 * k)
  hex := (List.range 16).map fun j =>
    if 16 * k + j < n then .byte (data (16 * k + j)).toNat else .blank
  ascii := (List.range 16).map fun j =>
    if 16 * k + j < n then
      if 32 ≤ data (16 * k + j) ∧ data (16 * k + j) ≤ 126 then data (16 * k + j) else 46
    else Printf.blank

/-- **The lines of a text are a faithful dump** of the first `n` bytes of the data: they say
what they should, one line for each sixteen bytes, and no two of them have the same label. -/
structure Faithful (data : ℕ → UInt8) (offset n : ℕ) (t : List UInt8) : Prop where
  terminated : ∀ l ∈ lines t, l.terminated = true
  rows : (lines t).map (fun l => readRow l.text) =
    (List.range ((n + 15) / 16)).map (rowOf data offset n)
  labels : ((lines t).map fun l => l.text.take 7).Nodup

section Reading

variable {data : ℕ → UInt8} {offset size x : Int32} {bs : List UInt8} {k n : ℕ}

theorem readColumn_hexCell (o : Option UInt8) :
    readColumn (hexCell o) = o.elim .blank fun b => .byte b.toNat := by
  cases o with
  | none => rfl
  | some b =>
    have htake : (hexCell (some b)).take 2 = zeros 2 (digits 16 b.toNat) := by
      rw [hexCell, List.take_append_of_le_length (length_hexDigits b).ge,
        List.take_of_length_le (length_hexDigits b).le]
    have hdrop : (hexCell (some b)).drop 2 = [Printf.blank] := List.drop_left' (length_hexDigits b)
    rw [readColumn, htake, read_zeros_digits (by decide) (by decide), hdrop]
    rfl

theorem readColumns_flatMap (l : List (Option UInt8)) (t : List UInt8) :
    readColumns l.length (l.flatMap hexCell ++ t) = l.map fun o => readColumn (hexCell o) := by
  induction l with
  | nil => rfl
  | cons o l ih =>
    rw [List.flatMap_cons, List.append_assoc, List.length_cons, readColumns,
      List.take_left' (length_hexCell o), List.drop_left' (length_hexCell o), ih, List.map_cons]

/-- **What is read of a line.** -/
theorem readRow_line (h : bs.length ≤ 16) : readRow (line x bs) =
    ⟨readLabel (label x), (cells bs).map fun o => o.elim .blank fun b => .byte b.toNat,
      (cells bs).map asciiCell⟩ := by
  have hlabel : (line x bs).take 7 = label x := by
    simp only [line, List.append_assoc]
    exact List.take_left' (length_label x)
  have hhex : (line x bs).drop 8 = (cells bs).flatMap hexCell ++
      (List.replicate 2 Printf.blank ++ (cells bs).map asciiCell) := by
    have hlen : (label x ++ [Printf.blank]).length = 8 := by
      rw [List.length_append, length_label]
      rfl
    simp only [line, List.append_assoc]
    rw [← List.append_assoc (label x), List.drop_left' hlen]
  have hascii : (line x bs).drop 58 = (cells bs).map asciiCell := by
    refine List.drop_left' ?_
    simp only [List.length_append, length_label, length_flatMap_hexCell, length_cells h,
      List.length_replicate, List.length_singleton]
  have hcolumns := readColumns_flatMap (cells bs)
    (List.replicate 2 Printf.blank ++ (cells bs).map asciiCell)
  rw [length_cells h] at hcolumns
  rw [readRow, hlabel, hhex, hascii, hcolumns]
  simp only [readColumn_hexCell]

/-- The columns of a line, one after another. -/
theorem cells_bytes (h : k ≤ 16) {i : ℕ} : cells (bytes data i k) =
    (List.range 16).map fun j => if j < k then some (data (16 * i + j)) else none := by
  refine List.ext_getElem ?_ fun j hj hj' => ?_
  · rw [length_cells (length_bytes.trans_le h), List.length_map, List.length_range]
  · rw [List.getElem_map, List.getElem_range]
    simp only [cells, bytes, slice, List.getElem_append, List.length_map, List.length_range]
    split_ifs <;> simp

theorem asciiCell_some (b : UInt8) :
    asciiCell (some b) = if 32 ≤ b ∧ b ≤ 126 then b else 46 := by
  have hlow : 31 < b ↔ 32 ≤ b := by
    rw [UInt8.lt_iff_toNat_lt, UInt8.le_iff_toNat_le]
    exact Iff.rfl
  have hhigh : b < 127 ↔ b ≤ 126 := by
    rw [UInt8.lt_iff_toNat_lt, UInt8.le_iff_toNat_le]
    exact Nat.lt_succ_iff
  exact if_congr (and_congr hlow hhigh) rfl rfl

/-- **The columns are always right**: of a line that is printed, only the label can be wrong. -/
theorem readRow_lineOf (hk : 16 * k < n) :
    readRow (lineOf data offset k (lineLength n k)) =
      { rowOf data 0 n k with label := readLabel (label (lineOffset offset k)) } := by
  have hle : lineLength n k ≤ 16 := min_le_left _ _
  have hiff : ∀ j ∈ List.range 16, (j < lineLength n k ↔ 16 * k + j < n) := by
    intro j hj
    have hlt := List.mem_range.mp hj
    rw [lineLength]
    omega
  rw [lineOf, readRow_line (length_bytes.trans_le hle), cells_bytes hle, List.map_map, List.map_map]
  simp only [rowOf, Row.mk.injEq, true_and]
  constructor
  · refine List.map_congr_left fun j hj => ?_
    simp only [Function.comp_apply, hiff j hj]
    split_ifs <;> rfl
  · refine List.map_congr_left fun j hj => ?_
    simp only [Function.comp_apply, hiff j hj]
    split_ifs with hjn hrange
    · rw [asciiCell_some, if_pos hrange]
    · rw [asciiCell_some, if_neg hrange]
    · rfl

/-! ### The labels -/

theorem readLabel_label (hx : 0 ≤ x.toInt) : readLabel (label x) =
    read 10 ((zeros 6 (digits 10 x.toInt.natAbs)).take 6) := by
  rw [label_eq, zeroDecimal, if_neg (by omega)]
  exact if_pos rfl

/-- **A label of six digits** denotes its offset, and no other label does. -/
theorem readLabel_iff (hx : 0 ≤ x.toInt) :
    readLabel (label x) = some x.toInt.toNat ↔ x.toInt ≤ 999999 := by
  have habs : x.toInt.natAbs = x.toInt.toNat := by omega
  rw [readLabel_label hx, habs]
  constructor
  · intro h
    have hlen : ((zeros 6 (digits 10 x.toInt.toNat)).take 6).length ≤ 6 := List.length_take_le _ _
    have hlt : x.toInt.toNat < 10 ^ 6 :=
      (lt_of_read (by decide) h).trans_le (Nat.pow_le_pow_right (by decide) hlen)
    omega
  · intro hle
    have hlen : (digits 10 x.toInt.toNat).length ≤ 6 :=
      (length_digits_le_iff (by decide) (by decide)).mpr (by omega)
    rw [List.take_of_length_le (by rw [length_zeros]; omega),
      read_zeros_digits (by decide) (by decide)]

theorem toInt_lineOffset (hx : 0 ≤ offset.toInt) (hk : offset.toInt + 16 * k < 2 ^ 31) :
    (lineOffset offset k).toInt = offset.toInt + 16 * k := by
  have hnat : (Int32.ofNat (16 * k)).toInt = 16 * k := by
    rw [Int32.toInt_ofNat_of_lt (by omega)]
    push_cast
    rfl
  rw [lineOffset, Int32.toInt_add, hnat, Int.bmod_eq_of_le (by omega) (by omega)]
  ring

/-- **A line is read as it should be** exactly if its offset has six digits at most. -/
theorem readRow_lineOf_iff (ho : 0 ≤ offset.toInt) (hk : 16 * k < n)
    (hsum : offset.toInt + n < 2 ^ 31) :
    readRow (lineOf data offset k (lineLength n k)) = rowOf data offset.toInt.toNat n k ↔
      offset.toInt + 16 * k ≤ 999999 := by
  have hx := toInt_lineOffset (k := k) ho (by omega)
  have hlabel := readLabel_iff (x := lineOffset offset k) (by omega)
  have hnat : (lineOffset offset k).toInt.toNat = offset.toInt.toNat + 16 * k := by omega
  rw [hnat, hx] at hlabel
  rw [readRow_lineOf hk, ← hlabel, Row.ext_iff]
  exact and_iff_left ⟨rfl, rfl⟩

/-- The lines that are printed of the data. -/
theorem lines_dumped (data : ℕ → UInt8) (offset size : Int32) :
    lines (dumped data offset size).out = (List.range ((size.toInt.toNat + 15) / 16)).map fun k =>
      ⟨lineOf data offset k (lineLength size.toInt.toNat k), true⟩ := by
  rw [out_dumped]
  exact lines_flatMap _ _ fun k _ => newline_notMem_line _ _

/-- **The data is read back** exactly if every line's offset has six digits at most. -/
theorem faithful_dumped (ho : 0 ≤ offset.toInt) (hsum : offset.toInt + size.toInt < 2 ^ 31) :
    Faithful data offset.toInt.toNat size.toInt.toNat (dumped data offset size).out ↔
      ∀ k < (size.toInt.toNat + 15) / 16, offset.toInt + 16 * k ≤ 999999 := by
  obtain ⟨n, hn⟩ : ∃ n, size.toInt.toNat = n := ⟨_, rfl⟩
  have hiff : ∀ k < (n + 15) / 16,
      (readRow (lineOf data offset k (lineLength n k)) = rowOf data offset.toInt.toNat n k ↔
        offset.toInt + 16 * k ≤ 999999) := fun k hk =>
    readRow_lineOf_iff ho (by omega) (by omega)
  have hlines := lines_dumped data offset size
  rw [hn] at hlines ⊢
  constructor
  · intro h k hk
    have hrows := h.rows
    rw [hlines, List.map_map, List.map_inj_left] at hrows
    exact (hiff k hk).mp (hrows k (List.mem_range.mpr hk))
  · intro h
    have hrows : ∀ k ∈ List.range ((n + 15) / 16),
        readRow (lineOf data offset k (lineLength n k)) = rowOf data offset.toInt.toNat n k :=
      fun k hk => (hiff k (List.mem_range.mp hk)).mpr (h k (List.mem_range.mp hk))
    constructor
    case terminated =>
      intro l hl
      rw [hlines] at hl
      obtain ⟨k, -, rfl⟩ := List.mem_map.mp hl
      rfl
    case rows =>
      rw [hlines, List.map_map]
      exact List.map_congr_left hrows
    case labels =>
      rw [hlines, List.map_map]
      refine List.Nodup.map_on (fun k hk i hi heq => ?_) List.nodup_range
      -- equal labels denote the same offset, and so belong to the same line
      have hlabel : ∀ k ∈ List.range ((n + 15) / 16),
          readLabel ((lineOf data offset k (lineLength n k)).take 7) =
            some (offset.toInt.toNat + 16 * k) := by
        intro k hk
        have hrow := congrArg Row.label (hrows k hk)
        simpa only [readRow, rowOf] using hrow
      have hread : readLabel ((lineOf data offset k (lineLength n k)).take 7) =
          readLabel ((lineOf data offset i (lineLength n i)).take 7) := congrArg readLabel heq
      rw [hlabel k hk, hlabel i hi] at hread
      have hsame := Option.some.inj hread
      omega

end Reading

/-- **The dump is faithful** – one line for each sixteen bytes, each with the label of its
offset, its bytes and its characters, and no label twice – exactly if there is no data or the
offset of the last line has six digits at most. -/
theorem hexDump_faithful_iff {offset size : Int32} (ho : 0 ≤ offset.toInt) (hs : 0 ≤ size.toInt)
    (hsum : offset.toInt + size.toInt < 2 ^ 31) (data : ℕ → UInt8) (address : ℕ)
    (caption : Option (List UInt8)) (verbose : Bool) :
    Faithful data offset.toInt.toNat size.toInt.toNat
        ((hexDump data address offset size caption verbose).drop
          (heading address size caption verbose ++ ruler).length) ↔
      size.toInt = 0 ∨ offset.toInt + 16 * ((size.toInt - 1) / 16) ≤ 999999 := by
  rw [hexDump, List.drop_left, faithful_dumped ho hsum]
  constructor
  · intro h
    by_contra hnot
    have hlast := h ((size.toInt.toNat - 1) / 16) (by omega)
    omega
  · intro h k hk
    omega

/-- A dump whose last label is the greatest that there is room for. -/
theorem hexDump_faithful_iff_at :
    0 ≤ (999983 : Int32).toInt ∧ 0 ≤ (20 : Int32).toInt ∧
      (999983 : Int32).toInt + (20 : Int32).toInt < 2 ^ 31 ∧
      Faithful UInt8.ofNat (999983 : Int32).toInt.toNat (20 : Int32).toInt.toNat
        ((hexDump UInt8.ofNat 4096 999983 20 none false).drop
          (heading 4096 20 none false ++ ruler).length) := by
  have ho : 0 ≤ (999983 : Int32).toInt := by decide
  have hs : 0 ≤ (20 : Int32).toInt := by decide
  have hsum : (999983 : Int32).toInt + (20 : Int32).toInt < 2 ^ 31 := by decide
  exact ⟨ho, hs, hsum, (hexDump_faithful_iff ho hs hsum _ _ _ _).mpr (by decide)⟩

/-- **Labels that are cut off**: the one of a line at the offset 1000000 denotes 100000, and
two lines from the offset 100000000 on have the same. -/
theorem label_cut_off :
    ¬Faithful (fun _ => 0) (1000000 : Int32).toInt.toNat (1 : Int32).toInt.toNat
        ((hexDump (fun _ => 0) 4096 1000000 1 none false).drop
          (heading 4096 1 none false ++ ruler).length) ∧
      readLabel (label 1000000) = some 100000 ∧
      ¬Faithful (fun _ => 0) (100000000 : Int32).toInt.toNat (32 : Int32).toInt.toNat
        ((hexDump (fun _ => 0) 4096 100000000 32 none false).drop
          (heading 4096 32 none false ++ ruler).length) ∧
      label 100000000 = label 100000016 := by
  refine ⟨fun h => ?_, by decide +kernel, fun h => ?_, by decide +kernel⟩
  · exact absurd h.rows (by decide +kernel)
  · exact absurd h.labels (by decide +kernel)

end HexDump

end SystemProgramming
