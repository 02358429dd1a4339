import Compiler16.Proofs.Machine.Reachable

/-!
# Programs in ROMs and in memory

A program goes through three forms: an image with an entry, a ROM, and the memory of a machine.
Nothing is lost on the way.  A program that fits into memory comes back from its ROM as it was, and
loading it puts its image at the start of memory and changes nothing else but the program counter.
If the program was made from instruction words, every word is fetched from its place again, up to
the last word of memory, after which the program counter wraps around.

## Main results

* `Program.ofRom_eq_ok_iff`: the programs that are read from a ROM
* `State.load_of_fits`, `State.load_of_not_fits`: the machine after a program was loaded or refused
* `Cpu.fetch_of_words`: words are fetched from memory as they were laid out there
* `Program.kept_by_rom_and_load`: all of it together
-/

namespace Compiler16.Machine

namespace Program

/-! ## ROMs -/

theorem ofRom_eq_ok_iff {rom : List UInt8} {p : Program} : ofRom rom = .ok p ↔
    (17 ≤ rom.length ∧ rom.length ≤ 65552) ∧
      p.entry = (rom.getD entryOffset 0).toUInt16 ∧ p.image = rom.drop headerSize := by
  unfold ofRom
  by_cases hshort : rom.length ≤ headerSize
  · simp only [hshort, if_true, reduceCtorEq, false_iff]
    simp only [headerSize] at hshort
    omega
  · by_cases hlong : memorySize < rom.length - headerSize
    · simp only [hshort, hlong, if_true, if_false, reduceCtorEq, false_iff]
      simp only [memorySize, headerSize] at hlong
      omega
    · simp only [hshort, hlong, if_false, Except.ok.injEq]
      simp only [memorySize, headerSize] at hshort hlong
      have hlen : 17 ≤ rom.length ∧ rom.length ≤ 65552 := by omega
      simp only [hlen, true_and, and_self, Program.ext_iff, eq_comm]

theorem exists_ofRom_eq_ok_iff (rom : List UInt8) :
    (∃ p, ofRom rom = .ok p) ↔ 17 ≤ rom.length ∧ rom.length ≤ 65552 := by
  constructor
  · rintro ⟨p, hp⟩
    exact (ofRom_eq_ok_iff.mp hp).1
  · intro h
    exact ⟨⟨_, _, toUInt16_le _⟩, ofRom_eq_ok_iff.mpr ⟨h, rfl, rfl⟩⟩

theorem length_toRom (p : Program) : p.toRom.length = 16 + p.image.length := by
  rw [toRom, List.length_append, length_header]

theorem getD_toRom (p : Program) : p.toRom.getD entryOffset 0 = lowByte p.entry := by
  have hlt : entryOffset < p.header.length := by
    rw [length_header]
    decide
  rw [toRom, List.getD_eq_getElem?_getD, List.getElem?_append_left hlt]
  simp [header, magic, headerSize]

/-- Nothing of an entry is lost in the one byte that a header has for it. -/
theorem toUInt16_lowByte_entry (p : Program) : (lowByte p.entry).toUInt16 = p.entry := by
  have hle : p.entry.toNat ≤ 0xFF := UInt16.le_iff_toNat_le.mp p.entry_le
  rw [← UInt16.toNat_inj, UInt8.toNat_toUInt16, toNat_lowByte]
  omega

/-- A program comes back from its ROM, if it fits into memory. -/
theorem ofRom_toRom_eq_ok_iff (p : Program) {q : Program} : ofRom p.toRom = .ok q ↔
    (1 ≤ p.image.length ∧ p.image.length ≤ 65536) ∧ q = p := by
  rw [ofRom_eq_ok_iff, getD_toRom, drop_toRom, length_toRom, toUInt16_lowByte_entry,
    ← Program.ext_iff]
  refine and_congr_left fun _ => ?_
  omega

end Program

/-! ## Loading -/

namespace State

variable {G : Type} (m : State G) {p : Program}

/-- Loading a program that fits. -/
theorem load_of_fits (h : p.image ≠ []) (hl : p.image.length ≤ memorySize) :
    m.load p = (.ok (), { m with
      cpu := { m.cpu with
        memory := m.cpu.memory.writeBytes 0 p.image
        pc := p.entry } }) := by
  simp only [load, onCpu, Exec.loadProgram_of_fits h hl]

/-- Loading a program that does not fit. -/
theorem load_of_not_fits (h : p.image = [] ∨ memorySize < p.image.length) :
    ∃ f, m.load p = (.error f, m) := by
  have he : ∃ f, Exec.loadProgram p m.cpu = .error f m.cpu := by
    rw [Exec.loadProgram, Exec.bind_apply, Exec.loadImage]
    by_cases hempty : p.image = []
    · exact ⟨.emptyRom, by simp [hempty]⟩
    · exact ⟨.romOverflow p.image.length, by simp [hempty, h.resolve_left hempty]⟩
  obtain ⟨f, hf⟩ := he
  exact ⟨f, by simp only [load, onCpu, hf]⟩

theorem load_fst_eq_error_iff :
    (∃ f, (m.load p).1 = .error f) ↔ p.image = [] ∨ memorySize < p.image.length := by
  constructor
  · rintro ⟨f, hf⟩
    refine Classical.byContradiction fun hfits => ?_
    obtain ⟨hne, hl⟩ := not_or.mp hfits
    rw [load_of_fits m hne (Nat.not_lt.mp hl)] at hf
    cases hf
  · intro h
    obtain ⟨f, hf⟩ := m.load_of_not_fits h
    exact ⟨f, by rw [hf]⟩

end State

/-- Bytes that are copied to the start of memory, with the old ones after them. -/
theorem Memory.read_writeBytes_zero (m : Memory) {bs : List UInt8} (h : bs.length ≤ memorySize)
    (x : UInt16) : (m.writeBytes 0 bs).read x = bs[x.toNat]?.getD (m.read x) := by
  rw [read_writeBytes m 0 bs x (by simpa using h)]
  simp

/-! ## Fetching -/

/-- The bytes of a word lie in a row, after those of the words before it. -/
theorem Word.getElem?_flatMap_toBytes (words : List Word) {i k : Nat} (hk : k < 4) :
    (words.flatMap toBytes)[4 * i + k]? = words[i]?.bind fun w => w.toBytes[k]? := by
  induction words generalizing i with
  | nil => simp
  | cons w words ih =>
    have hlen : w.toBytes.length = 4 := rfl
    rw [List.flatMap_cons]
    cases i with
    | zero => rw [List.getElem?_append_left (by omega)]; simp
    | succ i =>
      rw [List.getElem?_append_right (by omega), hlen, List.getElem?_cons_succ,
        show 4 * (i + 1) + k - 4 = 4 * i + k by omega]
      exact ih

theorem Word.length_flatMap_toBytes (words : List Word) :
    (words.flatMap toBytes).length = 4 * words.length := by
  induction words with
  | nil => rfl
  | cons w words ih =>
    rw [List.flatMap_cons, List.length_append, ih, List.length_cons,
      show w.toBytes.length = 4 from rfl]
    omega

/-- **Words are fetched from where they were laid out.** -/
theorem Cpu.fetch_of_words {c : Cpu} {old : Memory} {words : List Word}
    (hfit : 4 * words.length ≤ memorySize)
    (hc : c.memory = old.writeBytes 0 (words.flatMap Word.toBytes)) {i : Nat} {w : Word}
    (hw : words[i]? = some w) (hpc : c.pc = UInt16.ofNat (4 * i)) :
    c.fetch = (w, { c with pc := UInt16.ofNat (4 * (i + 1)) }) := by
  have hi : i < words.length := (List.getElem?_eq_some_iff.mp hw).1
  simp only [memorySize] at hfit
  have hbyte {k : Nat} (hk : k < 4) {b : UInt8} (hb : w.toBytes[k]? = some b) :
      c.memory.read (c.pc + UInt16.ofNat k) = b := by
    -- the words fit, so no byte of a word is beyond the end of memory
    have haddr : (c.pc + UInt16.ofNat k).toNat = 4 * i + k := by
      rw [hpc, ← UInt16.ofNat_add, UInt16.toNat_ofNat']
      omega
    rw [hc, Memory.read_writeBytes_zero old (by rw [Word.length_flatMap_toBytes]; omega), haddr,
      Word.getElem?_flatMap_toBytes words hk, hw, Option.bind_some, hb, Option.getD_some]
  have hword : c.fetch.1 = w := by
    have h0 : c.memory.read c.pc = w.opcode := by
      simpa using hbyte (k := 0) (by decide) rfl
    have h1 : c.memory.read (c.pc + 1) = w.registers := hbyte (k := 1) (by decide) rfl
    have h2 : c.memory.read (c.pc + 2) = w.low := hbyte (k := 2) (by decide) rfl
    have h3 : c.memory.read (c.pc + 3) = w.high := hbyte (k := 3) (by decide) rfl
    simp only [fetch, h0, h1, h2, h3]
  -- this is where the counter wraps around after the last word of memory
  have hnext : c.pc + wordSize = UInt16.ofNat (4 * (i + 1)) := by
    rw [hpc, Nat.mul_succ, UInt16.ofNat_add]
    rfl
  exact Prod.ext hword (by simp only [fetch, hnext])

/-! ## From words to memory and back -/

/-- **Programs survive ROMs and loading.**  A program comes back from its ROM if its image has
between one and 65536 bytes, and is refused there otherwise; the byte strings that are read as ROMs
are those of 17 to 65552 bytes.  Loading fails if the image is empty or larger than memory, and then
changes nothing; otherwise the image is put at the start of memory, the counter is at the entry, and
all else is as it was.  After the program of a list of words that fits was loaded, directly or from
its ROM, every word is fetched from its place, and the counter moves on by four. -/
theorem Program.kept_by_rom_and_load :
    (∀ p : Program,
      (1 ≤ p.image.length ∧ p.image.length ≤ 65536 → ofRom p.toRom = .ok p) ∧
      (¬ (1 ≤ p.image.length ∧ p.image.length ≤ 65536) → ∃ e, ofRom p.toRom = .error e)) ∧
    (∀ rom, (∃ p, ofRom rom = .ok p) ↔ 17 ≤ rom.length ∧ rom.length ≤ 65552) ∧
    (∀ (G : Type) (m : State G) (p : Program),
      ((∃ f, (m.load p).1 = .error f) ↔ p.image = [] ∨ 65536 < p.image.length) ∧
      ((∃ f, (m.load p).1 = .error f) → (m.load p).2 = m) ∧
      ((m.load p).1 = .ok () → ∃ memory : Memory,
        (m.load p).2 =
          { m with cpu := { m.cpu with memory := memory, pc := p.entry } } ∧
        ∀ x : UInt16, memory.read x = p.image[x.toNat]?.getD (m.cpu.memory.read x))) ∧
    (∀ (G : Type) (m : State G) (words : List Word) (p : Program),
      words ≠ [] → 4 * words.length ≤ 65536 →
      (p = ofWords words ∨ ofRom (ofWords words).toRom = .ok p) →
      (m.load p).1 = .ok () ∧ ∀ i w, words[i]? = some w →
        Cpu.fetch { (m.load p).2.cpu with pc := UInt16.ofNat (4 * i) } =
          (w, { (m.load p).2.cpu with pc := UInt16.ofNat (4 * (i + 1)) })) := by
  refine ⟨fun p => ⟨fun h => ?_, fun h => ?_⟩, exists_ofRom_eq_ok_iff,
    fun G m p => ⟨m.load_fst_eq_error_iff, fun h => ?_, fun h => ?_⟩,
    fun G m words p hne hfit hp => ?_⟩
  · exact (ofRom_toRom_eq_ok_iff p).mpr ⟨h, rfl⟩
  · cases hr : ofRom p.toRom with
    | error e => exact ⟨e, rfl⟩
    | ok q => exact absurd ((ofRom_toRom_eq_ok_iff p).mp hr).1 h
  · obtain ⟨f, hf⟩ := m.load_of_not_fits (m.load_fst_eq_error_iff.mp h)
    rw [hf]
  · have hfits : ¬ (p.image = [] ∨ memorySize < p.image.length) := by
      rw [← m.load_fst_eq_error_iff, h]
      rintro ⟨f, hf⟩
      cases hf
    obtain ⟨hne, hl⟩ := not_or.mp hfits
    refine ⟨_, congrArg Prod.snd (m.load_of_fits hne (Nat.not_lt.mp hl)), fun x => ?_⟩
    exact m.cpu.memory.read_writeBytes_zero (Nat.not_lt.mp hl) x
  · have hpw : p = ofWords words := hp.elim id fun h => ((ofRom_toRom_eq_ok_iff _).mp h).2
    have hlen : p.image.length = 4 * words.length := by
      rw [hpw]
      exact Word.length_flatMap_toBytes words
    have hpos : 0 < words.length := List.length_pos_iff.mpr hne
    have himage : p.image ≠ [] := by
      rw [← List.length_pos_iff, hlen]
      omega
    rw [m.load_of_fits himage (Nat.le_trans (Nat.le_of_eq hlen) hfit)]
    refine ⟨rfl, fun i w hw => ?_⟩
    exact Cpu.fetch_of_words hfit (by rw [hpw]; rfl) hw rfl

end Compiler16.Machine
