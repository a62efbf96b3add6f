/-
  `program.cc`: the table of programs the Qt client sends to a device or keeps in a file.

  The table is an index of one offset and one length for each program, then the bodies.  `encodePrograms`
  allocates what all programs together need, and writes a body only while it ends within the size limit;
  the limit does not shorten the array, and nothing reports that a body was left out.  Offsets and
  lengths are shorts.  So the table reads back exactly when it fits the limit and the shorts lead to
  the programs (`encodePrograms_iff`), which with a limit that is a short itself is the first alone.
-/
import KeyboardFirmware.Client.Encode

namespace KeyboardFirmware.Client

open Lib

/-- `Program`: its byte code, which is empty when there is none. -/
abbrev Program := List Byte

/-! ## Writing -/

/-- The array `encoded` and the offset of the cursor `p` in it. -/
structure ProgramCursor where
  encoded : List Byte
  p : Nat

/-- The body of the loop of `encodePrograms` for program `i`, which has this byte code. -/
def encodeProgram (dataStart maxSize : Nat) (c : ProgramCursor) (i : Nat) (bytecode : Program) :
    ProgramCursor :=
  let proglen : Fin 65536 := Fin.ofNat 65536 bytecode.length
  if bytecode.length ≠ 0 then
    let encoded := overwrite c.encoded (4 * i) (shortBytes (Fin.ofNat 65536 (c.p - dataStart)))
    let encoded := overwrite encoded (4 * i + 2) (shortBytes proglen)
    let encoded := if c.p + proglen ≤ maxSize then overwrite encoded c.p (bytecode.take proglen)
      else encoded
    ⟨encoded, c.p + proglen⟩
  else ⟨overwrite c.encoded (4 * i) (shortBytes 0xffff ++ shortBytes 0xffff), c.p⟩

/-- The loop of `encodePrograms` from program `i` on. -/
def encodeProgramsFrom (dataStart maxSize : Nat) : Nat → List Program → ProgramCursor → ProgramCursor
  | _, [], c => c
  | i, bytecode :: programs, c =>
    encodeProgramsFrom dataStart maxSize (i + 1) programs
      (encodeProgram dataStart maxSize c i bytecode)

/-- `Program::encodePrograms`. -/
def encodePrograms (programs : List Program) (nPrograms maxSize : Nat) : List Byte :=
  let programsSize := programs.foldl (fun n p => n + p.length) (4 * nPrograms)
  let dataStart := 4 * nPrograms
  (encodeProgramsFrom dataStart maxSize 0 (programs.take nPrograms)
    ⟨List.replicate programsSize 0xff, dataStart⟩).encoded

/-! ## Reading -/

/-- The bytes `QByteArray` copies; `none` is a read outside the array. -/
def readBytes (bs : List Byte) (offset length : Nat) : Option (List Byte) :=
  if length ≠ 0 ∧ bs.length < offset + length then none else some ((bs.drop offset).take length)

/-- The body of the loop of `readPrograms` for program `i`. -/
def readProgram (programData : List Byte) (nPrograms i : Nat) : Option Program := do
  let offset ← readShort programData (4 * i)
  if offset = 0xffff then some []
  else
    let length ← readShort programData (4 * i + 2)
    readBytes programData (4 * nPrograms + offset) length

/-- The loop of `readPrograms`, `left` programs being left. -/
def readProgramsFrom (programData : List Byte) (nPrograms : Nat) : Nat → Nat → Option (List Program)
  | 0, _ => some []
  | left + 1, i => do
    let bytecode ← readProgram programData nPrograms i
    let programs ← readProgramsFrom programData nPrograms left (i + 1)
    some (bytecode :: programs)

/-- `Program::readPrograms`. -/
def readPrograms (programData : List Byte) (nPrograms : Nat) : Option (List Program) :=
  readProgramsFrom programData nPrograms nPrograms 0

/-! ## What is written -/

/-- As much of a program as its short length says. -/
def programBody (bytecode : Program) : List Byte := bytecode.take (bytecode.length % 65536)

/-- The entry of a program whose body starts at `offset`. -/
def programEntry (offset : Nat) (bytecode : Program) : List Byte :=
  if bytecode = [] then shortBytes 0xffff ++ shortBytes 0xffff
  else shortBytes (Fin.ofNat 65536 offset) ++ shortBytes (Fin.ofNat 65536 bytecode.length)

/-- The entries, the first body starting at `offset`. -/
def programEntries : Nat → List Program → List Byte
  | _, [] => []
  | offset, bytecode :: programs =>
    programEntry offset bytecode ++ programEntries (offset + (programBody bytecode).length) programs

/-- The bodies. -/
def programBodies (programs : List Program) : List Byte := programs.flatMap programBody

variable {bytecode : Program} {programs : List Program} {dataStart maxSize offset : Nat}

theorem programBody_length (bytecode : Program) :
    (programBody bytecode).length = bytecode.length % 65536 := by
  rw [programBody, List.length_take, Nat.min_eq_left (Nat.mod_le _ _)]

@[simp] theorem programEntry_length (offset : Nat) (bytecode : Program) :
    (programEntry offset bytecode).length = 4 := by
  rw [programEntry]
  split <;> rfl

theorem programEntries_length : ∀ (programs : List Program) (offset : Nat),
    (programEntries offset programs).length = 4 * programs.length := by
  intro programs
  induction programs with
  | nil => exact fun _ => rfl
  | cons bytecode programs ih =>
    intro offset
    rw [programEntries, List.length_append, programEntry_length, ih, List.length_cons]
    omega

@[simp] theorem programBodies_cons (bytecode : Program) (programs : List Program) :
    programBodies (bytecode :: programs) = programBody bytecode ++ programBodies programs :=
  List.flatMap_cons

theorem programBodies_length_le (programs : List Program) :
    (programBodies programs).length ≤ programs.flatten.length := by
  induction programs with
  | nil => exact Nat.le_refl 0
  | cons bytecode programs ih =>
    rw [programBodies_cons, List.flatten_cons, List.length_append, List.length_append,
      programBody_length]
    exact Nat.add_le_add (Nat.mod_le _ _) ih

theorem programBodies_eq_flatten : ∀ {programs : List Program}, (∀ b ∈ programs, b.length < 65536) →
    programBodies programs = programs.flatten := by
  intro programs h
  induction programs with
  | nil => rfl
  | cons bytecode programs ih =>
    obtain ⟨hb, hrest⟩ := List.forall_mem_cons.mp h
    rw [programBodies_cons, List.flatten_cons, ih hrest, programBody, Nat.mod_eq_of_lt hb,
      List.take_length]

/-- One program writes its entry, and its body where that ends within the limit. -/
theorem encodeProgram_at {entries oldEntry restEntries bodies oldBody restBodies : List Byte} {i : Nat}
    (hi : entries.length = 4 * i) (hentry : oldEntry.length = 4)
    (hbody : oldBody.length = (programBody bytecode).length)
    (hstart : dataStart = entries.length + 4 + restEntries.length)
    (hmax : dataStart + bodies.length + (programBody bytecode).length ≤ maxSize) :
    encodeProgram dataStart maxSize
        ⟨entries ++ (oldEntry ++ (restEntries ++ (bodies ++ (oldBody ++ restBodies)))),
          dataStart + bodies.length⟩ i bytecode =
      ⟨entries ++ programEntry bodies.length bytecode ++
        (restEntries ++ (bodies ++ programBody bytecode ++ restBodies)),
        dataStart + (bodies ++ programBody bytecode).length⟩ := by
  obtain ⟨tail, htail⟩ : ∃ tail, restEntries ++ (bodies ++ (oldBody ++ restBodies)) = tail := ⟨_, rfl⟩
  rw [encodeProgram]
  by_cases hnil : bytecode = []
  · subst hnil
    obtain rfl : oldBody = [] := List.length_eq_zero_iff.mp hbody
    have hwrite := overwrite_eq entries oldEntry tail (shortBytes 0xffff ++ shortBytes 0xffff) hentry
    rw [htail, ← hi, if_neg (by simp), hwrite, ← htail]
    simp [programEntry, programBody]
  · obtain ⟨oldOffset, oldLength, rfl, hoffset⟩ : ∃ a b, oldEntry = a ++ b ∧ a.length = 2 :=
      ⟨oldEntry.take 2, oldEntry.drop 2, (List.take_append_drop _ _).symm, by simp; omega⟩
    have hlength : oldLength.length = 2 := by rw [List.length_append] at hentry; omega
    have hlen : bytecode.length ≠ 0 := fun h => hnil (List.length_eq_zero_iff.mp h)
    obtain ⟨offsetBytes, hoffsetBytes⟩ : ∃ bs, shortBytes (Fin.ofNat 65536 bodies.length) = bs := ⟨_, rfl⟩
    obtain ⟨lengthBytes, hlengthBytes⟩ : ∃ bs, shortBytes (Fin.ofNat 65536 bytecode.length) = bs :=
      ⟨_, rfl⟩
    have htwo : offsetBytes.length = 2 ∧ lengthBytes.length = 2 := by
      rw [← hoffsetBytes, ← hlengthBytes]
      exact ⟨rfl, rfl⟩
    have hentryEq : programEntry bodies.length bytecode = offsetBytes ++ lengthBytes := by
      rw [programEntry, if_neg hnil, hoffsetBytes, hlengthBytes]
    -- the three writes, one after the other
    have hfirst := overwrite_eq entries oldOffset (oldLength ++ tail) offsetBytes (by rw [hoffset, htwo.1])
    have hsecond := overwrite_eq (entries ++ offsetBytes) oldLength tail lengthBytes
      (by rw [hlength, htwo.2])
    have hthird := overwrite_eq (entries ++ offsetBytes ++ lengthBytes ++ restEntries ++ bodies) oldBody
      restBodies (programBody bytecode) hbody
    have hpos : (entries ++ offsetBytes ++ lengthBytes ++ restEntries ++ bodies).length =
        dataStart + bodies.length := by
      simp only [List.length_append, htwo.1, htwo.2, hstart]
    have htwoPos : (entries ++ offsetBytes).length = 4 * i + 2 := by rw [List.length_append, htwo.1, hi]
    rw [hi] at hfirst
    rw [htwoPos] at hsecond
    rw [hpos] at hthird
    have hmod : (Fin.ofNat 65536 bytecode.length).val = bytecode.length % 65536 := rfl
    rw [programBody_length] at hmax
    rw [← programBody_length] at hmod hmax
    simp only [htail, if_pos hlen, List.append_assoc oldOffset, Nat.add_sub_cancel_left, hoffsetBytes,
      hlengthBytes, hfirst, hsecond, hmod, if_pos hmax]
    have htake : bytecode.take (programBody bytecode).length = programBody bytecode := by
      rw [programBody_length, programBody]
    rw [← htail, htake, hentryEq, List.length_append, ← Nat.add_assoc]
    simp only [← List.append_assoc] at hthird ⊢
    rw [hthird]

/-- The loop writes the entries and the bodies, when all of them end within the limit. -/
theorem encodeProgramsFrom_at : ∀ (programs : List Program) (i : Nat)
    (entries oldEntries bodies oldBodies restBodies : List Byte),
    entries.length = 4 * i → oldEntries.length = 4 * programs.length →
    oldBodies.length = (programBodies programs).length →
    dataStart = entries.length + oldEntries.length →
    dataStart + bodies.length + (programBodies programs).length ≤ maxSize →
    (encodeProgramsFrom dataStart maxSize i programs
        ⟨entries ++ (oldEntries ++ (bodies ++ (oldBodies ++ restBodies))),
          dataStart + bodies.length⟩).encoded =
      entries ++ programEntries bodies.length programs ++
        (bodies ++ programBodies programs ++ restBodies) := by
  intro programs
  induction programs with
  | nil =>
    intro i entries oldEntries bodies oldBodies restBodies _ hentries hbodies _ _
    obtain rfl : oldEntries = [] := List.length_eq_zero_iff.mp hentries
    obtain rfl : oldBodies = [] := List.length_eq_zero_iff.mp hbodies
    simp [encodeProgramsFrom, programEntries, programBodies]
  | cons bytecode programs ih =>
    intro i entries oldEntries bodies oldBodies restBodies hi hentries hbodies hstart hmax
    rw [programBodies_cons, List.length_append] at hbodies hmax
    rw [List.length_cons] at hentries
    obtain ⟨e₁, e₂, rfl, he₁⟩ : ∃ a b, oldEntries = a ++ b ∧ a.length = 4 :=
      ⟨oldEntries.take 4, oldEntries.drop 4, (List.take_append_drop _ _).symm, by simp; omega⟩
    obtain ⟨b₁, b₂, rfl, hb₁⟩ : ∃ a b, oldBodies = a ++ b ∧ a.length = (programBody bytecode).length :=
      ⟨oldBodies.take (programBody bytecode).length, oldBodies.drop (programBody bytecode).length,
        (List.take_append_drop _ _).symm, by simp; omega⟩
    rw [List.length_append] at hentries hbodies hstart
    have hstep := @encodeProgram_at bytecode dataStart maxSize entries e₁ e₂ bodies b₁
      (b₂ ++ restBodies) i hi he₁ hb₁ (by omega) (by omega)
    have hrest := ih (i + 1) (entries ++ programEntry bodies.length bytecode) e₂
      (bodies ++ programBody bytecode) b₂ restBodies (by simp; omega) (by omega) (by omega)
      (by simp; omega) (by rw [List.length_append]; omega)
    rw [encodeProgramsFrom, List.append_assoc e₁, List.append_assoc b₁, hstep, hrest, programEntries,
      List.length_append, programBodies_cons]
    simp only [List.append_assoc]

theorem foldl_length_eq : ∀ (programs : List Program) (n : Nat),
    programs.foldl (fun n p => n + p.length) n = n + programs.flatten.length := by
  intro programs
  induction programs with
  | nil => exact fun _ => rfl
  | cons bytecode programs ih =>
    intro n
    rw [List.foldl_cons, ih, List.flatten_cons, List.length_append, Nat.add_assoc]

/-- **What `encodePrograms` writes** when it fits the limit. -/
theorem encodePrograms_eq (h : 4 * programs.length + programs.flatten.length ≤ maxSize) :
    encodePrograms programs programs.length maxSize =
      programEntries 0 programs ++ (programBodies programs ++
        List.replicate (programs.flatten.length - (programBodies programs).length) 0xff) := by
  have hle := programBodies_length_le programs
  have hold : List.replicate (4 * programs.length + programs.flatten.length) (0xff : Byte) =
      List.replicate (4 * programs.length) 0xff ++
        (List.replicate (programBodies programs).length 0xff ++
          List.replicate (programs.flatten.length - (programBodies programs).length) 0xff) := by
    rw [← List.replicate_add, ← List.replicate_add]
    exact congrArg (List.replicate · 0xff) (by omega)
  have hrun := @encodeProgramsFrom_at (4 * programs.length) maxSize programs 0 []
    (List.replicate (4 * programs.length) 0xff) [] (List.replicate (programBodies programs).length 0xff)
    (List.replicate (programs.flatten.length - (programBodies programs).length) 0xff) rfl
    List.length_replicate List.length_replicate (by simp) (by simp; omega)
  simp only [encodePrograms, foldl_length_eq, List.take_length, hold]
  exact hrun

/-! ## How long it is -/

theorem overwrite_length {bs data : List Byte} {pos : Nat} (h : pos + data.length ≤ bs.length) :
    (overwrite bs pos data).length = bs.length := by
  simp only [overwrite, List.length_append, List.length_take, List.length_drop]
  omega

/-- One program writes inside the array, and the cursor moves no further than its body is long. -/
theorem encodeProgram_length {c : ProgramCursor} {i : Nat} (hi : 4 * i + 4 ≤ c.encoded.length)
    (hp : c.p + bytecode.length ≤ c.encoded.length) :
    (encodeProgram dataStart maxSize c i bytecode).encoded.length = c.encoded.length ∧
      (encodeProgram dataStart maxSize c i bytecode).p ≤ c.p + bytecode.length := by
  rw [encodeProgram]
  split
  next hlen =>
    have hmod : (Fin.ofNat 65536 bytecode.length).val ≤ bytecode.length := Nat.mod_le _ _
    obtain ⟨first, hfirst⟩ : ∃ bs, overwrite c.encoded (4 * i)
      (shortBytes (Fin.ofNat 65536 (c.p - dataStart))) = bs := ⟨_, rfl⟩
    have hfirst_length : first.length = c.encoded.length := by
      rw [← hfirst]
      exact overwrite_length (by rw [shortBytes_length]; omega)
    obtain ⟨second, hsecond⟩ : ∃ bs, overwrite first (4 * i + 2)
      (shortBytes (Fin.ofNat 65536 bytecode.length)) = bs := ⟨_, rfl⟩
    have hsecond_length : second.length = c.encoded.length := by
      rw [← hsecond, ← hfirst_length]
      exact overwrite_length (by rw [shortBytes_length]; omega)
    simp only [hfirst, hsecond]
    refine ⟨?_, Nat.add_le_add_left hmod _⟩
    split
    · rw [← hsecond_length]
      exact overwrite_length (by rw [List.length_take]; omega)
    · exact hsecond_length
  next hlen =>
    exact ⟨overwrite_length (by rw [List.length_append, shortBytes_length]; omega), Nat.le_add_right _ _⟩

theorem encodeProgramsFrom_length : ∀ (programs : List Program) (i : Nat) (c : ProgramCursor),
    4 * (i + programs.length) ≤ c.encoded.length →
    c.p + programs.flatten.length ≤ c.encoded.length →
    (encodeProgramsFrom dataStart maxSize i programs c).encoded.length = c.encoded.length := by
  intro programs
  induction programs with
  | nil => exact fun _ _ _ _ => rfl
  | cons bytecode programs ih =>
    intro i c hi hp
    rw [List.length_cons] at hi
    rw [List.flatten_cons, List.length_append] at hp
    obtain ⟨hlen, hcursor⟩ := @encodeProgram_length bytecode dataStart maxSize c i (by omega) (by omega)
    rw [encodeProgramsFrom, ih _ _ (by omega) (by omega), hlen]

/-- The array is as long as all programs need, whatever the limit. -/
theorem encodePrograms_length (programs : List Program) (maxSize : Nat) :
    (encodePrograms programs programs.length maxSize).length =
      4 * programs.length + programs.flatten.length := by
  simp only [encodePrograms, foldl_length_eq, List.take_length]
  rw [encodeProgramsFrom_length _ _ _ (by simp) (by simp), List.length_replicate]

/-! ## What is read -/

/-- The entries in front of a program, its own and those behind it. -/
theorem programEntries_append (post : List Program) : ∀ (pre : List Program) (offset : Nat),
    programEntries offset (pre ++ post) =
      programEntries offset pre ++ programEntries (offset + (programBodies pre).length) post := by
  intro pre
  induction pre with
  | nil => exact fun _ => rfl
  | cons bytecode pre ih =>
    intro offset
    rw [List.cons_append, programEntries, programEntries, ih, programBodies_cons, List.length_append,
      ← Nat.add_assoc, List.append_assoc]

/-- What the reader makes of an entry: nothing, or the bytes its two shorts lead to. -/
theorem readProgram_entry (pre post : List Program) (data : List Byte) :
    readProgram (programEntries 0 (pre ++ bytecode :: post) ++ data)
        (pre ++ bytecode :: post).length pre.length =
      if bytecode = [] ∨ (programBodies pre).length % 65536 = 0xffff then some []
      else readBytes (programEntries 0 (pre ++ bytecode :: post) ++ data)
        (4 * (pre ++ bytecode :: post).length + (programBodies pre).length % 65536)
        (bytecode.length % 65536) := by
  obtain ⟨bytes, hbytes⟩ : ∃ bytes, programEntries 0 (pre ++ bytecode :: post) ++ data = bytes :=
    ⟨_, rfl⟩
  obtain ⟨rest, hrest⟩ : ∃ rest, programEntries
      ((programBodies pre).length + (programBody bytecode).length) post ++ data = rest := ⟨_, rfl⟩
  have hsplit : bytes =
      programEntries 0 pre ++ (programEntry (programBodies pre).length bytecode ++ rest) := by
    rw [← hbytes, ← hrest, programEntries_append, programEntries, Nat.zero_add, List.append_assoc,
      List.append_assoc]
  have hpos : 4 * pre.length = (programEntries 0 pre).length := (programEntries_length pre 0).symm
  rw [hbytes, readProgram, hpos]
  rw [programEntry] at hsplit
  by_cases hnil : bytecode = []
  · rw [if_pos hnil] at hsplit
    have hread := readShort_shortBytes (programEntries 0 pre) (shortBytes 0xffff ++ rest) 0xffff
    rw [List.append_assoc, ← List.append_assoc (shortBytes _), ← hsplit] at hread
    rw [hread, if_pos (.inl hnil)]
    rfl
  · rw [if_neg hnil] at hsplit
    obtain ⟨offset, hoffset⟩ : ∃ v, Fin.ofNat 65536 (programBodies pre).length = v := ⟨_, rfl⟩
    obtain ⟨length, hlength⟩ : ∃ v, Fin.ofNat 65536 bytecode.length = v := ⟨_, rfl⟩
    have hoffset_val : (programBodies pre).length % 65536 = offset.val := by rw [← hoffset]; rfl
    have hlength_val : bytecode.length % 65536 = length.val := by rw [← hlength]; rfl
    rw [hoffset, hlength] at hsplit
    have hfirst := readShort_shortBytes (programEntries 0 pre) (shortBytes length ++ rest) offset
    have hsecond := readShort_shortBytes (programEntries 0 pre ++ shortBytes offset) rest length
    rw [List.append_assoc, ← List.append_assoc (shortBytes _), ← hsplit] at hfirst
    rw [List.append_assoc, List.append_assoc, ← List.append_assoc (shortBytes offset), ← hsplit,
      List.length_append, shortBytes_length] at hsecond
    rw [hfirst, hoffset_val, hlength_val]
    by_cases habsent : offset = 0xffff
    · rw [habsent, if_pos (.inr rfl)]
      rfl
    · have hval : ¬ (bytecode = [] ∨ offset.val = 0xffff) := by
        rintro (h | h)
        · exact hnil h
        · exact habsent (Fin.ext h)
      rw [if_neg hval]
      simp only [Option.bind_eq_bind, Option.bind_some, if_neg habsent, hsecond]

/-- The loop reads these programs exactly when each of them is read. -/
theorem readProgramsFrom_eq_some {programData : List Byte} {nPrograms : Nat} :
    ∀ (programs : List Program) (i : Nat),
    readProgramsFrom programData nPrograms programs.length i = some programs ↔
      ∀ pre bytecode post, programs = pre ++ bytecode :: post →
        readProgram programData nPrograms (i + pre.length) = some bytecode := by
  intro programs
  induction programs with
  | nil =>
    intro i
    refine iff_of_true rfl fun pre bytecode post h => ?_
    simp at h
  | cons bytecode programs ih =>
    intro i
    constructor
    · intro h pre b post heq
      obtain ⟨b', hb', h⟩ := Option.bind_eq_some_iff.mp h
      obtain ⟨programs', hprograms', h⟩ := Option.bind_eq_some_iff.mp h
      obtain ⟨rfl, rfl⟩ := List.cons.inj (Option.some.inj h)
      cases pre with
      | nil =>
        obtain ⟨rfl, -⟩ := List.cons.inj heq
        exact hb'
      | cons first pre =>
        obtain ⟨-, hrest⟩ := List.cons.inj heq
        have hread := (ih (i + 1)).mp hprograms' pre b post hrest
        rwa [Nat.add_right_comm] at hread
    · intro h
      have hfirst : readProgram programData nPrograms i = some bytecode := h [] bytecode programs rfl
      have hrest := (ih (i + 1)).mpr fun pre b post heq => by
        have hread := h (bytecode :: pre) b post (by rw [heq]; rfl)
        rwa [List.length_cons, ← Nat.add_assoc, Nat.add_right_comm] at hread
      rw [List.length_cons, readProgramsFrom, hfirst, hrest]
      rfl

/-! ## Round trip -/

/-- Each program is shorter than a short can say; the offset where it starts, as a short, is not the
    one that says there is none; and at that offset of the bodies the program stands. -/
def ShortsSuffice (programs : List Program) : Prop :=
  ∀ pre bytecode post, programs = pre ++ bytecode :: post → bytecode ≠ [] →
    bytecode.length < 65536 ∧ pre.flatten.length % 65536 ≠ 0xffff ∧
      (programs.flatten.drop (pre.flatten.length % 65536)).take bytecode.length = bytecode

/-- Nothing is larger than the limit and nothing is lost. -/
def ProgramsKept (programs : List Program) (maxSize : Nat) : Prop :=
  (encodePrograms programs programs.length maxSize).length ≤ maxSize ∧
    readPrograms (encodePrograms programs programs.length maxSize) programs.length = some programs

theorem readPrograms_eq_some {programData : List Byte} :
    readPrograms programData programs.length = some programs ↔
      ∀ pre bytecode post, programs = pre ++ bytecode :: post →
        readProgram programData programs.length pre.length = some bytecode := by
  rw [readPrograms, readProgramsFrom_eq_some]
  simp only [Nat.zero_add]

theorem readBytes_length {bs result : List Byte} {offset length : Nat}
    (h : readBytes bs offset length = some result) : result.length = length := by
  rw [readBytes] at h
  split at h
  · cases h
  next hin =>
    obtain rfl := Option.some.inj h
    rw [List.length_take, List.length_drop]
    omega

theorem readBytes_append (entries bodies : List Byte) (offset length : Nat) :
    readBytes (entries ++ bodies) (entries.length + offset) length = readBytes bodies offset length := by
  rw [readBytes, readBytes, List.length_append, ← List.drop_drop, List.drop_left]
  simp only [Nat.add_assoc, Nat.add_lt_add_iff_left]

theorem readBytes_eq_some {bodies : List Byte} {offset : Nat} :
    readBytes bodies offset bytecode.length = some bytecode ↔
      (bodies.drop offset).take bytecode.length = bytecode := by
  constructor
  · intro h
    rw [readBytes] at h
    split at h
    · cases h
    · exact Option.some.inj h
  · intro h
    have hlen := congrArg List.length h
    rw [List.length_take, List.length_drop] at hlen
    rw [readBytes, if_neg (by omega), h]

/-- The reader's view of one program, when all of them have short lengths and fit. -/
theorem readProgram_encoded {pre post : List Program} (hshort : ∀ b ∈ programs, b.length < 65536)
    (hfits : 4 * programs.length + programs.flatten.length ≤ maxSize)
    (heq : programs = pre ++ bytecode :: post) (hne : bytecode ≠ []) :
    readProgram (encodePrograms programs programs.length maxSize) programs.length pre.length =
        some bytecode ↔
      pre.flatten.length % 65536 ≠ 0xffff ∧
        (programs.flatten.drop (pre.flatten.length % 65536)).take bytecode.length = bytecode := by
  have hpre : programBodies pre = pre.flatten := programBodies_eq_flatten fun b hb =>
    hshort b (heq ▸ List.mem_append_left _ hb)
  have hlen : bytecode.length % 65536 = bytecode.length :=
    Nat.mod_eq_of_lt (hshort bytecode (heq ▸ List.mem_append_right _ List.mem_cons_self))
  rw [encodePrograms_eq hfits, programBodies_eq_flatten hshort, Nat.sub_self, List.replicate_zero,
    List.append_nil]
  have hentry := @readProgram_entry bytecode pre post programs.flatten
  rw [← heq, hpre, hlen, ← programEntries_length programs 0, readBytes_append] at hentry
  rw [hentry]
  by_cases habsent : pre.flatten.length % 65536 = 0xffff
  · rw [if_pos (.inr habsent)]
    refine iff_of_false (fun h => hne (Option.some.inj h).symm) fun h => h.1 habsent
  · have hnot : ¬ (bytecode = [] ∨ pre.flatten.length % 65536 = 0xffff) := fun h => h.elim hne habsent
    rw [if_neg hnot, readBytes_eq_some]
    exact (and_iff_right habsent).symm

/-- What comes back has the lengths the shorts can say. -/
theorem length_lt_of_readPrograms (hfits : 4 * programs.length + programs.flatten.length ≤ maxSize)
    (h : readPrograms (encodePrograms programs programs.length maxSize) programs.length = some programs) :
    ∀ b ∈ programs, b.length < 65536 := by
  intro b hb
  obtain ⟨pre, post, rfl⟩ := List.append_of_mem hb
  have hread := readPrograms_eq_some.mp h pre b post rfl
  rw [encodePrograms_eq hfits, readProgram_entry] at hread
  split at hread
  · rw [← Option.some.inj hread]
    exact Nat.zero_lt_succ _
  · have hlen := readBytes_length hread
    omega

theorem programsKept_iff (programs : List Program) (maxSize : Nat) :
    ProgramsKept programs maxSize ↔
      4 * programs.length + programs.flatten.length ≤ maxSize ∧ ShortsSuffice programs := by
  rw [ProgramsKept, encodePrograms_length]
  refine and_congr_right fun hfits => ?_
  constructor
  · intro h pre bytecode post heq hne
    have hshort := length_lt_of_readPrograms hfits h
    have hread := readPrograms_eq_some.mp h pre bytecode post heq
    exact ⟨hshort bytecode (heq ▸ List.mem_append_right _ List.mem_cons_self),
      (readProgram_encoded hshort hfits heq hne).mp hread⟩
  · intro h
    have hshort : ∀ b ∈ programs, b.length < 65536 := by
      intro b hb
      obtain ⟨pre, post, heq⟩ := List.append_of_mem hb
      by_cases hnil : b = []
      · rw [hnil]
        exact Nat.zero_lt_succ _
      · exact (h pre b post heq hnil).1
    refine readPrograms_eq_some.mpr fun pre bytecode post heq => ?_
    by_cases hnil : bytecode = []
    · subst heq
      rw [encodePrograms_eq hfits, readProgram_entry, if_pos (.inl hnil), hnil]
    · exact (readProgram_encoded hshort hfits heq hnil).mpr (h pre bytecode post heq hnil).2

/-- **The table of programs** keeps within the limit and reads back as the same programs exactly when
    the entries and all bodies together fit the limit and the shorts of the entries suffice. -/
theorem encodePrograms_iff (programs : List Program) (maxSize : Nat) :
    ProgramsKept programs maxSize ↔
      4 * programs.length + programs.flatten.length ≤ maxSize ∧ ShortsSuffice programs :=
  programsKept_iff programs maxSize

/-- **A program that is too large is left out without a word**: two bytes of code do not fit five bytes
    with their entry; the array is of six bytes, and the code in it is filler. -/
theorem encodePrograms_leaves_out :
    ¬ ∀ (programs : List Program) (maxSize : Nat), ProgramsKept programs maxSize := by
  intro h
  exact absurd (h [[1, 2]] 5).1 (by decide)

/-- With a size that is a short, as a device's is, the shorts of the entries suffice for what fits. -/
theorem shortsSuffice_of_fits (h : 4 * programs.length + programs.flatten.length < 65536) :
    ShortsSuffice programs := by
  intro pre bytecode post heq hne
  have hlen : programs.flatten.length =
      pre.flatten.length + (bytecode.length + post.flatten.length) := by
    rw [heq, List.flatten_append, List.flatten_cons, List.length_append, List.length_append]
  have hcount : programs.length = pre.length + (post.length + 1) := by
    rw [heq, List.length_append, List.length_cons]
  have hmod : pre.flatten.length % 65536 = pre.flatten.length := Nat.mod_eq_of_lt (by omega)
  refine ⟨by omega, by omega, ?_⟩
  rw [hmod, heq, List.flatten_append, List.drop_left, List.flatten_cons, List.take_left]

/-! ## Where the reader stays inside -/

/-- The entry of program `i` can be read, and so can the bytes it leads to. -/
def ProgramInside (programData : List Byte) (nPrograms i : Nat) : Prop :=
  4 * i + 2 ≤ programData.length ∧
    ∀ offset, readShort programData (4 * i) = some offset → offset ≠ 0xffff →
      4 * i + 4 ≤ programData.length ∧
        ∀ length, readShort programData (4 * i + 2) = some length → length ≠ 0 →
          4 * nPrograms + offset + length ≤ programData.length

theorem readProgram_isSome {programData : List Byte} {nPrograms i : Nat} :
    (readProgram programData nPrograms i).isSome ↔ ProgramInside programData nPrograms i := by
  rw [ProgramInside, ← readShort_isSome, readProgram]
  cases hoffset : readShort programData (4 * i) with
  | none => simp
  | some offset =>
    simp only [Option.bind_eq_bind, Option.bind_some, Option.isSome_some, true_and, Option.some.injEq,
      forall_eq']
    by_cases habsent : offset = 0xffff
    · simp [habsent]
    · rw [if_neg habsent, ← @readShort_isSome programData (4 * i + 2)]
      cases hlength : readShort programData (4 * i + 2) with
      | none => simp [habsent]
      | some length =>
        have hzero : length = 0 ↔ length.val = 0 := Fin.ext_iff
        simp only [Option.bind_some, Option.isSome_some, true_and, Option.some.injEq, forall_eq',
          readBytes, ne_eq, habsent, not_false_eq_true, true_imp_iff, hzero]
        split
        next hout =>
          refine iff_of_false Bool.false_ne_true fun h => ?_
          exact absurd (h hout.1) (Nat.not_le.mpr hout.2)
        next hin =>
          exact iff_of_true rfl fun hne => Nat.le_of_not_lt fun hlt => hin ⟨hne, hlt⟩

/-- **The reader stays inside** exactly when each program does. -/
theorem readPrograms_isSome {programData : List Byte} {nPrograms : Nat} :
    (readPrograms programData nPrograms).isSome ↔ ∀ i < nPrograms, ProgramInside programData nPrograms i := by
  have hfrom : ∀ (left i : Nat), (readProgramsFrom programData nPrograms left i).isSome ↔
      ∀ j < left, ProgramInside programData nPrograms (i + j) := by
    intro left
    induction left with
    | zero => exact fun i => iff_of_true rfl fun j hj => absurd hj (Nat.not_lt_zero j)
    | succ left ih =>
      intro i
      have hboth : (readProgramsFrom programData nPrograms (left + 1) i).isSome ↔
          (readProgram programData nPrograms i).isSome ∧
            (readProgramsFrom programData nPrograms left (i + 1)).isSome := by
        rw [readProgramsFrom]
        cases readProgram programData nPrograms i with
        | none => simp
        | some bytecode => cases readProgramsFrom programData nPrograms left (i + 1) <;> simp
      rw [hboth, readProgram_isSome, ih]
      constructor
      · rintro ⟨hfirst, hrest⟩ j hj
        cases j with
        | zero => exact hfirst
        | succ j =>
          rw [Nat.add_comm j 1, ← Nat.add_assoc]
          exact hrest j (Nat.lt_of_succ_lt_succ hj)
      · intro h
        refine ⟨h 0 (Nat.succ_pos left), fun j hj => ?_⟩
        rw [Nat.add_assoc, Nat.add_comm 1 j]
        exact h (j + 1) (Nat.succ_lt_succ hj)
  have hall := hfrom nPrograms 0
  simp only [Nat.zero_add] at hall
  exact hall

/-- As many programs are read as were asked for. -/
theorem readPrograms_length {programData : List Byte} {nPrograms : Nat}
    (h : readPrograms programData nPrograms = some programs) : programs.length = nPrograms := by
  have hfrom : ∀ (left i : Nat) (programs : List Program),
      readProgramsFrom programData nPrograms left i = some programs → programs.length = left := by
    intro left
    induction left with
    | zero =>
      intro i programs h
      obtain rfl := Option.some.inj h
      rfl
    | succ left ih =>
      intro i programs h
      obtain ⟨bytecode, -, h⟩ := Option.bind_eq_some_iff.mp h
      obtain ⟨rest, hrest, h⟩ := Option.bind_eq_some_iff.mp h
      obtain rfl := Option.some.inj h
      rw [List.length_cons, ih _ _ hrest]
  exact hfrom nPrograms 0 programs h

end KeyboardFirmware.Client
