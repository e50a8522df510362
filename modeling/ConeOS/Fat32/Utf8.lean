import ConeOS.Library.Reading
import ConeOS.Library.Unicode
import ConeOS.Vfs.Path

namespace ConeOS.Fat32

open ConeOS.Library List
open ConeOS.Library.Reading
open ConeOS.Vfs (dot)
open String (utf8EncodeChar)

def space : UInt8 := 32

section Decoding

/-- `while (input[input_length]) input_length++`, for a number of rounds. -/
def stringLength : Nat → Nat → Reading (Option Nat)
  | 0, _ => pure none
  | rounds+1, offset => do
    let c ← byte offset
    if c=0 then pure (some offset) else stringLength rounds (offset+1)

/-- `(b & 0xC0) == 0x80`. -/
def continuation (b : UInt8) : Bool := b.toNat &&& 0xC0 == 0x80

/-- The code point that begins at an offset, with the number of bytes after the first. -/
def decodeCodepoint (length offset : Nat) : Reading (Option (Nat × Nat)) := do
  let first ← byte offset
  if first.toNat<0x80 then pure (some (first.toNat,0))
  else if 0xC2≤first.toNat ∧ first.toNat≤0xDF then
    if length≤offset+1 then pure none
    else do
      let b1 ← byte (offset+1)
      if !continuation b1 then pure none
      else pure (some ((first.toNat &&& 0x1F) <<< 6 ||| (b1.toNat &&& 0x3F), 1))
  else if 0xE0≤first.toNat ∧ first.toNat≤0xEF then
    if length≤offset+2 then pure none
    else do
      let b1 ← byte (offset+1)
      let b2 ← byte (offset+2)
      if !continuation b1 || !continuation b2 ||
          (first.toNat == 0xE0 && decide (b1.toNat<0xA0)) ||
          (first.toNat == 0xED && decide (0xA0≤b1.toNat)) then pure none
      else
        pure (some ((first.toNat &&& 0x0F) <<< 12 ||| ((b1.toNat &&& 0x3F) <<< 6 |||
          (b2.toNat &&& 0x3F)), 2))
  else if 0xF0≤first.toNat ∧ first.toNat≤0xF4 then
    if length≤offset+3 then pure none
    else do
      let b1 ← byte (offset+1)
      let b2 ← byte (offset+2)
      let b3 ← byte (offset+3)
      if !continuation b1 || !continuation b2 || !continuation b3 ||
          (first.toNat == 0xF0 && decide (b1.toNat<0x90)) ||
          (first.toNat == 0xF4 && decide (0x90≤b1.toNat)) then pure none
      else
        pure (some ((first.toNat &&& 7) <<< 18 ||| ((b1.toNat &&& 0x3F) <<< 12 |||
          ((b2.toNat &&& 0x3F) <<< 6 ||| (b3.toNat &&& 0x3F))), 3))
  else pure none

/-- A control character, DEL, or one of the characters no name may hold. -/
def forbidden (codepoint : Nat) : Bool :=
  decide (codepoint<0x20) || codepoint == 0x7F ||
    [47,92,58,42,63,34,60,62,124].contains codepoint

/-- The units of a code point after those stored already. -/
def storeUnits (codepoint : Nat) (units : List UInt16) : Option (List UInt16) :=
  if codepoint≤0xFFFF then
    if units.length=255 then none else some (units ++ [UInt16.ofNat codepoint])
  else if 253<units.length then none
  else
    some (units ++ [UInt16.ofNat (0xD800 ||| ((codepoint-0x10000) >>> 10)),
      UInt16.ofNat (0xDC00 ||| ((codepoint-0x10000) &&& 0x3FF))])

/-- The loop over the input; the result and the units written so far. -/
def decodeFrom (length offset : Nat) (units : List UInt16) : Reading (Bool × List UInt16) :=
  if offset<length then do
    let decoded ← decodeCodepoint length offset
    match decoded with
    | none => pure (false,units)
    | some (codepoint,extra) =>
      if forbidden codepoint then pure (false,units)
      else
        match storeUnits codepoint units with
        | none => pure (false,units)
        | some units' => decodeFrom length (offset+1+extra) units'
  else if units.length=0 ∨ 255<units.length then pure (false,units)
  else pure (true,units)
termination_by length-offset

/-- `utf8_to_utf16`; `none` stands for a string without an end in the given rounds. -/
def utf8ToUtf16 (rounds : Nat) : Reading (Option (Bool × List UInt16)) := do
  let stop ← stringLength rounds 0
  match stop with
  | none => pure none
  | some length =>
    if length=0 then pure (some (false, []))
    else do
      let first ← byte 0
      if first=space then pure (some (false, []))
      else do
        let last ← byte (length-1)
        if last=space ∨ last=dot then pure (some (false, []))
        else do
          let result ← decodeFrom length 0 []
          pure (some result)

end Decoding

section Codepoint

variable {bytes : Nat → UInt8} {length offset : Nat} {stop count n : Nat} {b : UInt8}

/-- The bytes of a range. -/
def segment (bytes : Nat → UInt8) (offset stop : Nat) : List UInt8 :=
  (List.range (stop-offset)).map (fun i => bytes (offset+i))

theorem continuation_iff (b : UInt8) :
    continuation b=true ↔ 128≤b.toNat ∧ b.toNat<192 := by
  have hall : ∀ n<256, (n &&& 0xC0 == 0x80)=decide (128≤n ∧ n<192) := by decide +kernel
  rw [continuation,hall _ (UInt8.toNat_lt_size b),decide_eq_true_eq]

theorem segment_nil (h : length≤offset) : segment bytes offset length=[] := by
  rw [segment,Nat.sub_eq_zero_of_le h]
  rfl

theorem segment_cons (h : offset<length) :
    segment bytes offset length=bytes offset :: segment bytes (offset+1) length := by
  rw [segment,segment,show length-offset=(length-(offset+1))+1 by omega,
    range_succ_eq_map,map_cons,map_map]
  refine congrArg₂ List.cons rfl (map_congr_left fun i _ => ?_)
  show bytes (offset+(i+1))=bytes (offset+1+i)
  rw [Nat.add_assoc,Nat.add_comm 1]

theorem segment_add (bytes : Nat → UInt8) (offset count : Nat) :
    segment bytes offset (offset+count) =
      (List.range count).map (fun i => bytes (offset+i)) := by
  rw [segment,Nat.add_sub_cancel_left]

theorem segment_drop (bytes : Nat → UInt8) (offset stop count : Nat) :
    (segment bytes offset stop).drop count=segment bytes (offset+count) stop := by
  apply ext_getElem
  · simp only [segment,length_drop,length_map,length_range]
    omega
  · intro i _ _
    simp only [segment,getElem_drop,getElem_map,getElem_range,Nat.add_assoc]

theorem segment_take (h : offset+count ≤ stop) :
    (segment bytes offset stop).take count=segment bytes offset (offset+count) := by
  apply ext_getElem
  · simp only [segment,length_take,length_map,length_range]
    omega
  · intro i _ _
    simp only [segment,getElem_take,getElem_map,getElem_range]

theorem segment_append (h : offset+count ≤ stop) :
    segment bytes offset stop =
      segment bytes offset (offset+count) ++ segment bytes (offset+count) stop := by
  rw [← segment_take h,← segment_drop,take_append_drop]

theorem segment_one : segment bytes offset (offset+1+0)=[bytes offset] := by
  rw [Nat.add_assoc,segment_add]
  rfl

theorem segment_two :
    segment bytes offset (offset+1+1)=[bytes offset,bytes (offset+1)] := by
  rw [Nat.add_assoc,segment_add]
  rfl

theorem segment_three :
    segment bytes offset (offset+1+2) =
      [bytes offset,bytes (offset+1),bytes (offset+2)] := by
  rw [Nat.add_assoc,segment_add]
  rfl

theorem segment_four :
    segment bytes offset (offset+1+3) =
      [bytes offset,bytes (offset+1),bytes (offset+2),bytes (offset+3)] := by
  rw [Nat.add_assoc,segment_add]
  rfl

theorem segment_length (bytes : Nat → UInt8) (offset stop : Nat) :
    (segment bytes offset stop).length=stop-offset := by
  rw [segment,length_map,length_range]

theorem join_two (a b : Nat) : (a &&& 0x1F) <<< 6 ||| (b &&& 0x3F)=a%32*64+b%64 := by
  have ha : a &&& 0x1F=a%32 := Nat.and_two_pow_sub_one_eq_mod a 5
  have hb : b &&& 0x3F=b%64 := Nat.and_two_pow_sub_one_eq_mod b 6
  rw [ha,hb,← Nat.shiftLeft_add_eq_or_of_lt (by omega),Nat.shiftLeft_eq]

theorem join_tail (b c : Nat) :
    (b &&& 0x3F) <<< 6 ||| (c &&& 0x3F)=b%64*64+c%64 := by
  have hb : b &&& 0x3F=b%64 := Nat.and_two_pow_sub_one_eq_mod b 6
  have hc : c &&& 0x3F=c%64 := Nat.and_two_pow_sub_one_eq_mod c 6
  rw [hb,hc,← Nat.shiftLeft_add_eq_or_of_lt (by omega),Nat.shiftLeft_eq]

theorem join_three (a b c : Nat) :
    (a &&& 0x0F) <<< 12 ||| ((b &&& 0x3F) <<< 6 ||| (c &&& 0x3F)) =
      a%16*4096+(b%64*64+c%64) := by
  have ha : a &&& 0x0F=a%16 := Nat.and_two_pow_sub_one_eq_mod a 4
  rw [join_tail,ha,← Nat.shiftLeft_add_eq_or_of_lt (by omega),Nat.shiftLeft_eq]

theorem join_four (a b c d : Nat) :
    (a &&& 7) <<< 18 ||| ((b &&& 0x3F) <<< 12 ||| ((c &&& 0x3F) <<< 6 ||| (d &&& 0x3F))) =
      a%8*262144+(b%64*4096+(c%64*64+d%64)) := by
  have ha : a &&& 7=a%8 := Nat.and_two_pow_sub_one_eq_mod a 3
  have hb : b &&& 0x3F=b%64 := Nat.and_two_pow_sub_one_eq_mod b 6
  have htail : (b%64) <<< 12 ||| (c%64*64+d%64) =
      b%64*4096+(c%64*64+d%64) := by
    rw [← Nat.shiftLeft_add_eq_or_of_lt (by omega),Nat.shiftLeft_eq]
  rw [join_tail,hb,htail,ha,← Nat.shiftLeft_add_eq_or_of_lt (by omega),Nat.shiftLeft_eq]

theorem eq_ofNat_of_toNat (h : b.toNat=n) : b=UInt8.ofNat n := by
  rw [← h,UInt8.ofNat_toNat]

/-- What is decoded is the encoding of a character. -/
theorem decodeCodepoint_some {codepoint extra : Nat}
    (h : (decodeCodepoint length offset).value bytes=some (codepoint,extra))
    (hlt : offset<length) :
    offset+1+extra≤length ∧ ∃ c : Char, c.toNat=codepoint ∧
      segment bytes offset (offset+1+extra)=utf8EncodeChar c := by
  have hfirst := UInt8.toNat_lt_size (bytes offset)
  rw [decodeCodepoint] at h
  simp only [value_bind,value_byte,value_ite,value_pure] at h
  by_cases h1 : (bytes offset).toNat<0x80
  · rw [if_pos h1] at h
    cases h
    obtain ⟨c,hc⟩ := exists_char (n := (bytes offset).toNat) (.inl (by omega))
    refine ⟨by omega,c,hc,?_⟩
    rw [segment_one,utf8EncodeChar_one (by omega),hc,UInt8.ofNat_toNat]
  rw [if_neg h1] at h
  by_cases h2 : 0xC2≤(bytes offset).toNat ∧ (bytes offset).toNat≤0xDF
  · rw [if_pos h2] at h
    split_ifs at h with hshort hcont
    rw [Bool.not_eq_true',Bool.not_eq_false,continuation_iff] at hcont
    cases h
    rw [join_two]
    obtain ⟨c,hc⟩ := exists_char
      (n := (bytes offset).toNat%32*64+(bytes (offset+1)).toNat%64) (.inl (by omega))
    refine ⟨by omega,c,hc,?_⟩
    rw [segment_two,utf8EncodeChar_two (by omega) (by omega),hc]
    refine congrArg₂ List.cons (eq_ofNat_of_toNat (by omega)) ?_
    exact congrArg₂ List.cons (eq_ofNat_of_toNat (by omega)) rfl
  rw [if_neg h2] at h
  by_cases h3 : 0xE0≤(bytes offset).toNat ∧ (bytes offset).toNat≤0xEF
  · rw [if_pos h3] at h
    split_ifs at h with hshort hcont
    simp only [Bool.or_eq_true,Bool.not_eq_true',Bool.and_eq_true,beq_iff_eq,
      decide_eq_true_eq,not_or,Bool.not_eq_false,continuation_iff] at hcont
    cases h
    rw [join_three]
    obtain ⟨c,hc⟩ := exists_char (n := (bytes offset).toNat%16*4096 +
      ((bytes (offset+1)).toNat%64*64+(bytes (offset+2)).toNat%64)) (by omega)
    refine ⟨by omega,c,hc,?_⟩
    rw [segment_three,utf8EncodeChar_three (by omega) (by omega),hc]
    refine congrArg₂ List.cons (eq_ofNat_of_toNat (by omega)) ?_
    refine congrArg₂ List.cons (eq_ofNat_of_toNat (by omega)) ?_
    exact congrArg₂ List.cons (eq_ofNat_of_toNat (by omega)) rfl
  rw [if_neg h3] at h
  split_ifs at h with h4 hshort hcont
  simp only [Bool.or_eq_true,Bool.not_eq_true',Bool.and_eq_true,beq_iff_eq,
    decide_eq_true_eq,not_or,Bool.not_eq_false,continuation_iff] at hcont
  cases h
  rw [join_four]
  obtain ⟨c,hc⟩ := exists_char (n := (bytes offset).toNat%8*262144 +
    ((bytes (offset+1)).toNat%64*4096+((bytes (offset+2)).toNat%64*64 +
      (bytes (offset+3)).toNat%64))) (by omega)
  refine ⟨by omega,c,hc,?_⟩
  rw [segment_four,utf8EncodeChar_four (by omega),hc]
  refine congrArg₂ List.cons (eq_ofNat_of_toNat (by omega)) ?_
  refine congrArg₂ List.cons (eq_ofNat_of_toNat (by omega)) ?_
  refine congrArg₂ List.cons (eq_ofNat_of_toNat (by omega)) ?_
  exact congrArg₂ List.cons (eq_ofNat_of_toNat (by omega)) rfl

theorem segment_at {i : Nat} {text : List UInt8}
    (h : segment bytes offset stop=text) (hb : text[i]? = some b) :
    bytes (offset+i)=b ∧ offset+i<stop := by
  rw [← h,segment,List.getElem?_map,Option.map_eq_some_iff] at hb
  obtain ⟨j,hj,hbyte⟩ := hb
  obtain ⟨hlt,hval⟩ := List.getElem?_eq_some_iff.mp hj
  rw [getElem_range] at hval
  rw [length_range] at hlt
  subst hval
  exact ⟨hbyte,by omega⟩

theorem toNat_of_eq_ofNat (h : b=UInt8.ofNat n) (hn : n<256) :
    b.toNat=n := by
  rw [h,UInt8.toNat_ofNat']
  exact Nat.mod_eq_of_lt hn

/-- The encoding of a character is decoded. -/
theorem decodeCodepoint_encoded {c : Char} {rest : List UInt8}
    (h : segment bytes offset length=utf8EncodeChar c ++ rest) :
    (decodeCodepoint length offset).value bytes =
      some (c.toNat, (utf8EncodeChar c).length-1) := by
  have hvalid := char_valid c
  rw [decodeCodepoint]
  simp only [value_bind,value_byte,value_ite,value_pure]
  by_cases h1 : c.toNat<0x80
  · rw [utf8EncodeChar_one h1] at h ⊢
    have h0 := toNat_of_eq_ofNat (segment_at (i := 0) h rfl).1 (by omega)
    rw [Nat.add_zero] at h0
    rw [h0,if_pos h1]
    rfl
  by_cases h2 : c.toNat<0x800
  · rw [utf8EncodeChar_two (by omega) h2] at h ⊢
    have h0 := toNat_of_eq_ofNat (segment_at (i := 0) h rfl).1 (by omega)
    obtain ⟨hb1,hlen⟩ := segment_at (i := 1) h rfl
    have h1' := toNat_of_eq_ofNat hb1 (by omega)
    have hc1 : continuation (bytes (offset+1))=true := by
      rw [continuation_iff,h1']
      omega
    rw [Nat.add_zero] at h0
    rw [h0,if_neg (by omega),if_pos (by omega),if_neg (by omega),hc1,if_neg (by simp),join_two,h1']
    congr 2
    omega
  by_cases h3 : c.toNat<0x10000
  · rw [utf8EncodeChar_three (by omega) h3] at h ⊢
    have h0 := toNat_of_eq_ofNat (segment_at (i := 0) h rfl).1 (by omega)
    have h1' := toNat_of_eq_ofNat (segment_at (i := 1) h rfl).1 (by omega)
    obtain ⟨hb2,hlen⟩ := segment_at (i := 2) h rfl
    have h2' := toNat_of_eq_ofNat hb2 (by omega)
    have hc1 : continuation (bytes (offset+1))=true := by
      rw [continuation_iff,h1']
      omega
    have hc2 : continuation (bytes (offset+2))=true := by
      rw [continuation_iff,h2']
      omega
    rw [Nat.add_zero] at h0
    rw [h0,if_neg (by omega),if_neg (by omega),if_pos (by omega),if_neg (by omega),hc1,hc2,
      h1',if_neg (by simp; omega),join_three,h2']
    congr 2
    omega
  rw [utf8EncodeChar_four (by omega)] at h ⊢
  have h0 := toNat_of_eq_ofNat (segment_at (i := 0) h rfl).1 (by omega)
  have h1' := toNat_of_eq_ofNat (segment_at (i := 1) h rfl).1 (by omega)
  have h2' := toNat_of_eq_ofNat (segment_at (i := 2) h rfl).1 (by omega)
  obtain ⟨hb3,hlen⟩ := segment_at (i := 3) h rfl
  have h3' := toNat_of_eq_ofNat hb3 (by omega)
  have hc1 : continuation (bytes (offset+1))=true := by
    rw [continuation_iff,h1']
    omega
  have hc2 : continuation (bytes (offset+2))=true := by
    rw [continuation_iff,h2']
    omega
  have hc3 : continuation (bytes (offset+3))=true := by
    rw [continuation_iff,h3']
    omega
  rw [Nat.add_zero] at h0
  rw [h0,if_neg (by omega),if_neg (by omega),if_neg (by omega),if_pos (by omega),
    if_neg (by omega),hc1,hc2,hc3,h1',if_neg (by simp; omega),join_four,h2',h3']
  congr 2
  omega

end Codepoint

section Loop

variable {bytes : Nat → UInt8} {length offset : Nat} {units : List UInt16}

theorem value_decodeFrom (h : offset<length) :
    (decodeFrom length offset units).value bytes =
      match (decodeCodepoint length offset).value bytes with
      | none => (false,units)
      | some (codepoint,extra) =>
        if forbidden codepoint then (false,units)
        else
          match storeUnits codepoint units with
          | none => (false,units)
          | some units' => (decodeFrom length (offset+1+extra) units').value bytes := by
  rw [decodeFrom,if_pos h,value_bind]
  cases (decodeCodepoint length offset).value bytes with
  | none => rfl
  | some decoded =>
    obtain ⟨codepoint,extra⟩ := decoded
    dsimp only
    rw [value_ite]
    cases storeUnits codepoint units with
    | none => rfl
    | some units' => rfl

theorem value_decodeFrom_end (h : ¬ offset<length) :
    (decodeFrom length offset units).value bytes =
      if units.length=0 ∨ 255<units.length then (false,units) else (true,units) := by
  rw [decodeFrom,if_neg h,value_ite]
  rfl

/-- The units of a character are stored exactly if they fit below the limit. -/
theorem storeUnits_char (c : Char) (hunits : units.length≤255) :
    storeUnits c.toNat units =
      if (units ++ utf16EncodeChar c).length≤255 then some (units ++ utf16EncodeChar c)
      else none := by
  have hvalid := char_valid c
  rw [storeUnits]
  by_cases hlow : c.toNat<0x10000
  · rw [if_pos (by omega),utf16EncodeChar_low hlow,length_append,length_singleton]
    by_cases hfull : units.length=255
    · rw [if_pos hfull,if_neg (by omega)]
    · rw [if_neg hfull,if_pos (by omega)]
  have hhigh : 0xD800 ||| ((c.toNat-0x10000) >>> 10) =
      0xD800+(c.toNat-0x10000)/0x400 := by
    rw [Nat.shiftRight_eq_div_pow]
    exact (Nat.shiftLeft_add_eq_or_of_lt (i := 10) (b := (c.toNat-0x10000)/2 ^ 10)
      (by omega) 54).symm
  have hrest : 0xDC00 ||| ((c.toNat-0x10000) &&& 0x3FF) =
      0xDC00+(c.toNat-0x10000)%0x400 := by
    rw [show (c.toNat-0x10000) &&& 0x3FF=(c.toNat-0x10000)%2 ^ 10 from
      Nat.and_two_pow_sub_one_eq_mod _ 10]
    exact (Nat.shiftLeft_add_eq_or_of_lt (i := 10) (b := (c.toNat-0x10000)%2 ^ 10)
      (by omega) 55).symm
  rw [if_neg (by omega),utf16EncodeChar_high hlow,length_append,hhigh,hrest]
  by_cases hfull : 253<units.length
  · rw [if_pos hfull,if_neg (by simp; omega)]
  · rw [if_neg hfull,if_pos (by simp; omega)]

/-- The code points of the characters that name separators, drives and patterns. -/
def reserved : List Nat := [0x22,0x2A,0x2F,0x3A,0x3C,0x3E,0x3F,0x5C,0x7C]

/-- The characters a name may hold: no control character, not DEL, none of the reserved ones. -/
def Allowed (c : Char) : Prop := 0x20≤c.toNat ∧ c.toNat≠0x7F ∧ c.toNat ∉ reserved

theorem allowed_iff (c : Char) : Allowed c ↔ forbidden c.toNat=false := by
  simp only [Allowed,forbidden,reserved,Bool.or_eq_false_iff,decide_eq_false_iff_not,
    beq_eq_false_iff_ne,ne_eq,contains_eq_mem,mem_cons,not_mem_nil,or_false,not_or]
  omega

theorem decodeFrom_accepts {cs : List Char}
    (htext : segment bytes offset length=cs.flatMap utf8EncodeChar)
    (hallowed : ∀ c ∈ cs, Allowed c) (hfits : (units ++ cs.flatMap utf16EncodeChar).length≤255)
    (hsome : units ++ cs.flatMap utf16EncodeChar≠[]) :
    (decodeFrom length offset units).value bytes=(true,units ++ cs.flatMap utf16EncodeChar) := by
  induction cs generalizing offset units with
  | nil =>
    have hlen := congrArg List.length htext
    rw [segment_length,flatMap_nil,length_nil] at hlen
    rw [flatMap_nil,append_nil] at hfits hsome ⊢
    have hpos := length_pos_iff.mpr hsome
    rw [value_decodeFrom_end (by omega),if_neg (by omega)]
  | cons c cs ih =>
    rw [flatMap_cons] at htext hfits hsome ⊢
    have hpos := utf8EncodeChar_length_pos c
    have hlen := congrArg List.length htext
    rw [segment_length,length_append] at hlen
    rw [← append_assoc] at hfits hsome ⊢
    have hhead : (units ++ utf16EncodeChar c).length≤255 := by
      rw [length_append] at hfits
      omega
    have hunits : units.length≤255 := by
      rw [length_append] at hhead
      omega
    rw [value_decodeFrom (by omega),decodeCodepoint_encoded htext]
    dsimp only
    rw [(allowed_iff c).mp (hallowed c mem_cons_self),if_neg (by simp),
      storeUnits_char c hunits,if_pos hhead]
    have hnext : offset+1+((utf8EncodeChar c).length-1) =
        offset+(utf8EncodeChar c).length := by omega
    dsimp only
    rw [hnext]
    refine ih ?_ (fun d hd => hallowed d (mem_cons_of_mem c hd)) hfits hsome
    have hdrop := congrArg (List.drop (utf8EncodeChar c).length) htext
    rw [drop_left,segment_drop] at hdrop
    exact hdrop

theorem decodeFrom_true {out : List UInt16} (hunits : units.length≤255)
    (h : (decodeFrom length offset units).value bytes=(true,out)) :
    ∃ cs : List Char, segment bytes offset length=cs.flatMap utf8EncodeChar ∧
      (∀ c ∈ cs, Allowed c) ∧ out=units ++ cs.flatMap utf16EncodeChar ∧ out.length≤255 ∧
      out≠[] := by
  induction hn : length-offset using Nat.strong_induction_on generalizing offset units with
  | _ n ih =>
  subst hn
  by_cases hlt : offset<length
  · rw [value_decodeFrom hlt] at h
    cases hdec : (decodeCodepoint length offset).value bytes with
    | none =>
      rw [hdec] at h
      cases h
    | some decoded =>
      obtain ⟨codepoint,extra⟩ := decoded
      obtain ⟨hle,c,rfl,hchar⟩ := decodeCodepoint_some hdec hlt
      rw [hdec] at h
      dsimp only at h
      by_cases hforbidden : forbidden c.toNat=true
      · rw [if_pos hforbidden] at h
        cases h
      rw [if_neg hforbidden,storeUnits_char c hunits] at h
      by_cases hfits : (units ++ utf16EncodeChar c).length≤255
      · rw [if_pos hfits] at h
        obtain ⟨cs,htext,hallowed,hout,hrest⟩ := ih _ (by omega) hfits h rfl
        refine ⟨c :: cs,?_,?_,?_,hrest⟩
        · rw [Nat.add_assoc] at hle htext hchar
          rw [segment_append hle,hchar,htext,flatMap_cons]
        · intro d hd
          obtain rfl | hd := mem_cons.mp hd
          · exact (allowed_iff d).mpr (Bool.eq_false_of_not_eq_true hforbidden)
          · exact hallowed d hd
        · rw [hout,flatMap_cons,append_assoc]
      · rw [if_neg hfits] at h
        cases h
  · rw [value_decodeFrom_end hlt] at h
    split_ifs at h with hcount
    · cases h
    obtain ⟨-,rfl⟩ := Prod.mk.inj h
    rw [not_or] at hcount
    refine ⟨[],segment_nil (by omega),by simp,by simp,by omega,?_⟩
    exact length_pos_iff.mp (Nat.pos_of_ne_zero hcount.1)

/-- No unit is written past the limit, whatever the result. -/
theorem decodeFrom_bounded (hunits : units.length≤255) :
    ((decodeFrom length offset units).value bytes).2.length≤255 := by
  induction hn : length-offset using Nat.strong_induction_on generalizing offset units with
  | _ n ih =>
  subst hn
  by_cases hlt : offset<length
  · rw [value_decodeFrom hlt]
    cases hdec : (decodeCodepoint length offset).value bytes with
    | none => exact hunits
    | some decoded =>
      obtain ⟨codepoint,extra⟩ := decoded
      obtain ⟨hle,c,rfl,hchar⟩ := decodeCodepoint_some hdec hlt
      dsimp only
      by_cases hforbidden : forbidden c.toNat=true
      · rw [if_pos hforbidden]
        exact hunits
      rw [if_neg hforbidden,storeUnits_char c hunits]
      by_cases hfits : (units ++ utf16EncodeChar c).length≤255
      · rw [if_pos hfits]
        exact ih _ (by omega) hfits rfl
      · rw [if_neg hfits]
        exact hunits
  · rw [value_decodeFrom_end hlt]
    split_ifs
    · exact hunits
    · exact hunits

theorem below_decodeCodepoint (h : offset<length) :
    Below length (decodeCodepoint length offset) bytes := by
  refine below_bind (below_byte h) (below_ite (fun _ => below_pure _) (fun _ => ?_))
  refine below_ite (fun _ => ?_) (fun _ => below_ite (fun _ => ?_) (fun _ => ?_))
  · refine below_ite (fun _ => below_pure _) (fun _ => ?_)
    refine below_bind (below_byte (by omega)) ?_
    exact below_ite (fun _ => below_pure _) (fun _ => below_pure _)
  · refine below_ite (fun _ => below_pure _) (fun _ => ?_)
    refine below_bind (below_byte (by omega)) (below_bind (below_byte (by omega)) ?_)
    exact below_ite (fun _ => below_pure _) (fun _ => below_pure _)
  refine below_ite (fun _ => ?_) (fun _ => below_pure _)
  refine below_ite (fun _ => below_pure _) (fun _ => ?_)
  refine below_bind (below_byte (by omega)) (below_bind (below_byte (by omega)) ?_)
  refine below_bind (below_byte (by omega)) ?_
  exact below_ite (fun _ => below_pure _) (fun _ => below_pure _)

theorem below_decodeFrom : Below length (decodeFrom length offset units) bytes := by
  induction hn : length-offset using Nat.strong_induction_on generalizing offset units with
  | _ n ih =>
  subst hn
  rw [decodeFrom]
  refine below_ite (fun hlt => ?_)
    (fun _ => below_ite (fun _ => below_pure _) (fun _ => below_pure _))
  refine below_bind (below_decodeCodepoint hlt) ?_
  cases (decodeCodepoint length offset).value bytes with
  | none => exact below_pure _
  | some decoded =>
    refine below_ite (fun _ => below_pure _) (fun _ => ?_)
    cases storeUnits decoded.1 units with
    | none => exact below_pure _
    | some units' => exact ih _ (by omega) rfl

end Loop

section Name

variable {offset : Nat}

/-- A NUL-terminated string of `length` bytes. -/
structure IsString (bytes : Nat → UInt8) (length : Nat) : Prop where
  inside : ∀ i<length, bytes i≠0
  terminated : bytes length=0

/-- The names the function is to accept, with the UTF-16 form of each. -/
structure ValidName (text : List UInt8) (cs : List Char) : Prop where
  encoded : text=cs.flatMap utf8EncodeChar
  allowed : ∀ c ∈ cs, Allowed c
  nonempty : text≠[]
  first : text.head? ≠ some space
  last : text.getLast? ≠ some space ∧ text.getLast? ≠ some dot
  short : (cs.flatMap utf16EncodeChar).length≤255

variable {bytes : Nat → UInt8} {length rounds : Nat}

theorem value_stringLength (h : IsString bytes length) (hle : offset≤length)
    (hrounds : length<offset+rounds) :
    (stringLength rounds offset).value bytes=some length := by
  induction rounds generalizing offset with
  | zero => omega
  | succ rounds ih =>
    rw [stringLength,value_bind,value_byte,value_ite,value_pure]
    by_cases hend : offset=length
    · rw [hend,if_pos h.terminated]
    · rw [if_neg (h.inside offset (by omega))]
      exact ih (by omega) (by omega)

theorem below_stringLength (h : IsString bytes length) (hle : offset≤length) :
    Below (length+1) (stringLength rounds offset) bytes := by
  induction rounds generalizing offset with
  | zero => exact below_pure _
  | succ rounds ih =>
    refine below_bind (below_byte (by omega)) (below_ite (fun _ => below_pure _) (fun hne => ?_))
    refine ih ?_
    by_contra hgt
    have hend : offset=length := by omega
    rw [value_byte,hend] at hne
    exact hne h.terminated

/-- The length the string has, and no other, is found. -/
theorem stringLength_some (h : IsString bytes length) {found : Nat}
    (hfound : (stringLength rounds 0).value bytes=some found) : found=length := by
  have hgen : ∀ (rounds offset : Nat), offset≤length →
      (stringLength rounds offset).value bytes=some found → found=length := by
    intro rounds
    induction rounds with
    | zero =>
      intro offset _ hf
      cases hf
    | succ rounds ih =>
      intro offset hle hf
      rw [stringLength,value_bind,value_byte,value_ite,value_pure] at hf
      by_cases hzero : bytes offset=0
      · rw [if_pos hzero] at hf
        cases hf
        by_contra hne
        exact h.inside found (by omega) hzero
      rw [if_neg hzero] at hf
      refine ih (offset+1) ?_ hf
      by_contra hgt
      have hend : offset=length := by omega
      exact hzero (hend ▸ h.terminated)
  exact hgen rounds 0 (Nat.zero_le _) hfound

theorem below_utf8ToUtf16 (h : IsString bytes length) :
    Below (length+1) (utf8ToUtf16 rounds) bytes := by
  refine below_bind (below_stringLength h (Nat.zero_le _)) ?_
  cases hfound : (stringLength rounds 0).value bytes with
  | none => exact below_pure _
  | some found =>
    have hlen := stringLength_some h hfound
    subst hlen
    refine below_ite (fun _ => below_pure _) (fun hpos => ?_)
    refine below_bind (below_byte (by omega)) (below_ite (fun _ => below_pure _) (fun _ => ?_))
    refine below_bind (below_byte (by omega)) (below_ite (fun _ => below_pure _) (fun _ => ?_))
    refine below_bind ?_ (below_pure _)
    intro i hi
    have := below_decodeFrom i hi
    omega

theorem segment_head? (hpos : 0<length) : (segment bytes 0 length).head? = some (bytes 0) := by
  rw [segment_cons hpos,List.head?_cons]

theorem segment_getLast? (hpos : 0<length) :
    (segment bytes 0 length).getLast? = some (bytes (length-1)) := by
  have hlast : segment bytes (length-1) length=[bytes (length-1)] := by
    rw [segment_cons (by omega),segment_nil (by omega)]
  have hcut : segment bytes 0 length=segment bytes 0 (0+(length-1)) ++
      segment bytes (0+(length-1)) length := segment_append (by omega)
  rw [Nat.zero_add,hlast] at hcut
  rw [hcut,List.getLast?_concat]

theorem value_utf8ToUtf16 (h : IsString bytes length) (hrounds : length<rounds) :
    (utf8ToUtf16 rounds).value bytes =
      if length=0 then some (false, [])
      else if bytes 0=space then some (false, [])
      else if bytes (length-1)=space ∨ bytes (length-1)=dot then some (false, [])
      else some ((decodeFrom length 0 []).value bytes) := by
  rw [utf8ToUtf16,value_bind,value_stringLength h (Nat.zero_le _) (by omega)]
  simp only [value_ite,value_bind,value_byte,value_pure]

/-- What is to be known of the result and of the units written. -/
structure DecodesName (text : List UInt8) (accepted : Bool) (units : List UInt16) : Prop where
  accepted_iff : accepted=true ↔ ∃ cs, ValidName text cs
  stored : ∀ cs, ValidName text cs → units=cs.flatMap utf16EncodeChar
  bounded : units.length≤255

theorem DecodesName.refused {text : List UInt8} (h : ∀ cs, ¬ ValidName text cs) :
    DecodesName text false [] where
  accepted_iff := by
    refine iff_of_false (by simp) ?_
    intro hex
    obtain ⟨cs,hcs⟩ := hex
    exact h cs hcs
  stored cs hcs := absurd hcs (h cs)
  bounded := Nat.zero_le _

theorem ValidName.decoded {cs : List Char} (h : ValidName (segment bytes 0 length) cs) :
    (decodeFrom length 0 []).value bytes=(true,cs.flatMap utf16EncodeChar) := by
  have hunits : cs.flatMap utf16EncodeChar≠[] := by
    cases hcs : cs with
    | nil =>
      have := h.nonempty
      rw [h.encoded,hcs] at this
      exact absurd rfl this
    | cons c rest =>
      intro hnil
      have hlen := congrArg List.length hnil
      rw [flatMap_cons,length_append,utf16EncodeChar_length,length_nil] at hlen
      split_ifs at hlen <;> omega
  have hrun : (decodeFrom length 0 []).value bytes=(true, [] ++ cs.flatMap utf16EncodeChar) :=
    decodeFrom_accepts h.encoded h.allowed h.short hunits
  rwa [nil_append] at hrun

theorem decodesName_decodeFrom (hpos : 0<length) (hfirst : bytes 0≠space)
    (hlast : ¬ (bytes (length-1)=space ∨ bytes (length-1)=dot)) :
    DecodesName (segment bytes 0 length) ((decodeFrom length 0 []).value bytes).1
      ((decodeFrom length 0 []).value bytes).2 := by
  refine ⟨⟨fun haccepted => ?_,fun hex => ?_⟩,fun cs hcs => by rw [hcs.decoded],
    decodeFrom_bounded (Nat.zero_le _)⟩
  · obtain ⟨cs,htext,hallowed,hout,hlen,-⟩ :=
      decodeFrom_true (Nat.zero_le _) (Prod.ext haccepted rfl)
    rw [nil_append] at hout
    rw [hout] at hlen
    refine ⟨cs,htext,hallowed,?_,?_,?_,hlen⟩
    · rw [segment_cons hpos]
      simp
    · rw [segment_head? hpos,ne_eq,Option.some.injEq]
      exact hfirst
    · rw [segment_getLast? hpos,ne_eq,ne_eq,Option.some.injEq,Option.some.injEq]
      exact not_or.mp hlast
  · obtain ⟨cs,hcs⟩ := hex
    rw [hcs.decoded]

/-- For every NUL-terminated string: the names accepted are the valid ones, what is stored is
their UTF-16 form, at most 255 units are written, and nothing past the end is read. -/
theorem utf8ToUtf16_correct (bytes : Nat → UInt8) (length : Nat) (h : IsString bytes length)
    (rounds : Nat) (hrounds : length<rounds) :
    ∃ accepted units, (utf8ToUtf16 rounds).value bytes=some (accepted,units) ∧
      DecodesName (segment bytes 0 length) accepted units ∧
      Below (length+1) (utf8ToUtf16 rounds) bytes := by
  have hbelow : Below (length+1) (utf8ToUtf16 rounds) bytes := below_utf8ToUtf16 h
  rw [value_utf8ToUtf16 h hrounds]
  by_cases hzero : length=0
  · rw [if_pos hzero]
    refine ⟨false,[],rfl,.refused fun cs hcs => hcs.nonempty ?_,hbelow⟩
    exact segment_nil (by omega)
  have hpos : 0<length := Nat.pos_of_ne_zero hzero
  rw [if_neg hzero]
  by_cases hfirst : bytes 0=space
  · rw [if_pos hfirst]
    refine ⟨false,[],rfl,.refused fun cs hcs => hcs.first ?_,hbelow⟩
    rw [segment_head? hpos,hfirst]
  rw [if_neg hfirst]
  by_cases hlast : bytes (length-1)=space ∨ bytes (length-1)=dot
  · rw [if_pos hlast]
    refine ⟨false,[],rfl,.refused fun cs hcs => ?_,hbelow⟩
    have hends := hcs.last
    rw [segment_getLast? hpos,ne_eq,ne_eq,Option.some.injEq,Option.some.injEq] at hends
    exact hlast.elim hends.1 hends.2
  rw [if_neg hlast]
  exact ⟨_,_,rfl,decodesName_decodeFrom hpos hfirst hlast,hbelow⟩

/-- The two bytes of U+00E9, then the terminator. -/
def sampleName : Nat → UInt8
  | 0 => 0xC3
  | 1 => 0xA9
  | _ => 0

theorem sampleName_decoded :
    ∃ accepted units, (utf8ToUtf16 3).value sampleName=some (accepted,units) ∧
      DecodesName (segment sampleName 0 2) accepted units ∧
      Below 3 (utf8ToUtf16 3) sampleName :=
  utf8ToUtf16_correct sampleName 2 ⟨by decide,rfl⟩ 3 (by decide)

end Name

end ConeOS.Fat32
