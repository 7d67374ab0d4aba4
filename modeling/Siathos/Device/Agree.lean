import Siathos.Device.Decoders

/-!
# One text for two decoders

The text of a reader is a function of the key codes that it takes. The driver loses a character of
every pair, and what follows 0xE0 depends on the time it takes to come.
-/

namespace Siathos.Device

/-! ## What key codes mean -/

/-- What a code does, and the characters that it gives. A pair gives two. -/
def strike (d : Decoder) (scan : UInt8) : Decoder × List UInt8 :=
  match modifier d scan with
  | some d => (d, [])
  | none =>
    let c := keyChar d scan
    if c = 0 then (d, [])
    else if isDead c && d.dead = 0 then ({ d with dead := c }, [])
    else if d.dead ≠ 0 then
      if c = 0x20 then ({ d with dead := 0 }, [d.dead]) else ({ d with dead := 0 }, [d.dead, c])
    else (d, [c])

/-- The text of key codes. -/
def typed : Decoder → List UInt8 → List UInt8
  | _, [] => []
  | d, scan :: rest => (strike d scan).2 ++ typed (strike d scan).1 rest

/-- No accent is followed by a character other than a space. -/
def Unpaired : Decoder → List UInt8 → Prop
  | _, [] => True
  | d, scan :: rest => (strike d scan).2.length ≤ 1 ∧ Unpaired (strike d scan).1 rest

/-- The text of the driver: the second character of a pair waits, and goes out in the place of the
next one. -/
def Odigos.typed : Decoder → UInt8 → List UInt8 → List UInt8
  | _, _, [] => []
  | d, queued, scan :: rest =>
    match (strike d scan).2 with
    | [] => Odigos.typed (strike d scan).1 queued rest
    | [c] =>
      if d.dead = 0 ∧ queued ≠ 0 then queued :: Odigos.typed (strike d scan).1 0 rest
      else c :: Odigos.typed (strike d scan).1 queued rest
    | accent :: c :: _ => accent :: Odigos.typed (strike d scan).1 c rest

theorem length_odigos_typed (d : Decoder) (queued : UInt8) (keys : List UInt8) :
    (Odigos.typed d queued keys).length ≤ (typed d keys).length ∧
      ((Odigos.typed d queued keys).length = (typed d keys).length → Unpaired d keys) := by
  induction keys generalizing d queued with
  | nil => exact ⟨Nat.le_refl _, fun _ => trivial⟩
  | cons scan rest ih =>
    have hlen : ∀ q, _ := fun q => ih (strike d scan).1 q
    simp only [Odigos.typed, typed, Unpaired]
    match hchars : (strike d scan).2 with
    | [] => simpa using hlen queued
    | [c] =>
      split_ifs
      · simpa using hlen 0
      · simpa using hlen queued
    | accent :: c :: more =>
      have hless := (hlen c).1
      simp only [List.length_cons, List.length_append]
      omega

theorem odigos_typed_of_unpaired {d : Decoder} {keys : List UInt8} (h : Unpaired d keys) :
    Odigos.typed d 0 keys = typed d keys := by
  induction keys generalizing d with
  | nil => rfl
  | cons scan rest ih =>
    have hrest := ih h.2
    have hone := h.1
    simp only [Odigos.typed, typed]
    match hchars : (strike d scan).2 with
    | [] => simpa using hrest
    | [c] => simpa using hrest
    | accent :: c :: more =>
      rw [hchars] at hone
      simp at hone

theorem odigos_typed_eq_iff (d : Decoder) (keys : List UInt8) :
    Odigos.typed d 0 keys = typed d keys ↔ Unpaired d keys :=
  ⟨fun h => (length_odigos_typed d 0 keys).2 (congrArg List.length h), odigos_typed_of_unpaired⟩

/-! ## The codes that a reader takes -/

/-- The looks after the one that finds the next byte. -/
def later (come : List Bool) : List Bool := (come.dropWhile (!·)).tail

/-- Before the next byte comes, fewer than `n` looks find nothing. -/
def prompt (n : Nat) (come : List Bool) : Bool := (come.takeWhile (!·)).length < n

/-- The codes that a reader takes that waits `n` looks for the byte after 0xE0. -/
def codes (n : Nat) : List UInt8 → List Bool → List UInt8
  | [], _ => []
  | [b], _ => if b = 0xE0 then [] else [b]
  | b :: next :: rest, come =>
    if b = 0xE0 then
      if prompt n (later come) then codes n rest (later (later come))
      else codes n (next :: rest) ((later come).drop n)
    else b :: codes n (next :: rest) (later come)

theorem codes_late (n : Nat) (bytes : List UInt8) (come : List Bool) :
    codes n bytes (false :: come) = codes n bytes come := by
  match bytes with
  | [] => rfl
  | [b] => rfl
  | b :: next :: rest => rfl

theorem codes_cons (n : Nat) {b : UInt8} (h : b ≠ 0xE0) (rest : List UInt8) (come : List Bool) :
    codes n (b :: rest) come = b :: codes n rest (later come) := by
  cases rest with
  | nil => simp [codes, h]
  | cons next rest => simp [codes, h]

theorem skip_nil (n : Nat) (come : List Bool) : (Port.skip n ⟨[], come⟩).bytes = [] := by
  induction n generalizing come with
  | zero => rfl
  | succ n ih =>
    match come with
    | [] => exact ih []
    | true :: come => exact ih come
    | false :: come => exact ih come

theorem skip_cons (n : Nat) (b : UInt8) (bytes : List UInt8) (come : List Bool) :
    Port.skip n ⟨b :: bytes, come⟩ =
      if prompt n come then ⟨bytes, later come⟩ else ⟨b :: bytes, come.drop n⟩ := by
  induction n generalizing come with
  | zero => simp [Port.skip, prompt]
  | succ n ih =>
    match come with
    | [] => simp [Port.skip, Port.poll, prompt, later]
    | true :: come => simp [Port.skip, Port.poll, prompt, later]
    | false :: come => simpa [Port.skip, Port.poll, prompt, later] using ih come

theorem codes_skip (n : Nat) (rest : List UInt8) (come : List Bool) :
    codes n (Port.skip n ⟨rest, later come⟩).bytes (Port.skip n ⟨rest, later come⟩).come =
      codes n (0xE0 :: rest) come := by
  cases rest with
  | nil => simp [skip_nil, codes]
  | cons next rest =>
    rw [skip_cons]
    simp only [codes, if_pos]
    split_ifs <;> rfl

/-- The codes of a port. -/
def Port.codes (n : Nat) (p : Port) : List UInt8 := Device.codes n p.bytes p.come

theorem poll_none {p : Port} (n : Nat) (h : p.poll.1 = none) : p.poll.2.codes n = p.codes n := by
  obtain ⟨bytes, come⟩ := p
  match come, bytes with
  | [], [] => rfl
  | true :: come, [] => rfl
  | false :: come, bytes => exact (codes_late n bytes come).symm

theorem poll_some {p : Port} {b : UInt8} (h : p.poll.1 = some b) :
    p.bytes = b :: p.poll.2.bytes ∧ p.poll.2.come = later p.come := by
  obtain ⟨bytes, come⟩ := p
  match come, bytes with
  | [], b' :: bytes => simpa [Port.poll, later] using h
  | true :: come, b' :: bytes => simpa [Port.poll, later] using h

theorem codes_poll {p : Port} {b : UInt8} (n : Nat) (h : p.poll.1 = some b) :
    p.codes n = if b = 0xE0 then (p.poll.2.skip n).codes n else b :: p.poll.2.codes n := by
  obtain ⟨hbytes, hcome⟩ := poll_some h
  unfold Port.codes
  rw [hbytes]
  split_ifs with hext
  · rw [hext, ← codes_skip, ← hcome]
  · rw [codes_cons n hext, hcome]

/-! ## One request -/

def waiting (queued : UInt8) : List UInt8 := if queued = 0 then [] else [queued]

/-- The text that the kernel still has to give. -/
def Fallback.left (r : Reader) : List UInt8 := waiting r.queued ++ typed r.toDecoder (r.port.codes 1000)

/-- The text that the driver still has to give. -/
def Odigos.left (r : Reader) : List UInt8 := Odigos.typed r.toDecoder r.queued (r.port.codes 8)

theorem Fallback.ps2Process_strike {r : Reader} {scan : UInt8} (hext : scan ≠ 0xE0) (hq : r.queued = 0) :
    (ps2Process r scan).2.toDecoder = (strike r.toDecoder scan).1 ∧ (ps2Process r scan).2.port = r.port ∧
      (strike r.toDecoder scan).2 =
        (ps2Process r scan).1.toList ++ waiting (ps2Process r scan).2.queued := by
  unfold ps2Process strike
  rw [if_neg hext]
  cases modifier r.toDecoder scan with
  | some d => simp [waiting, hq]
  | none =>
    dsimp only
    unfold press
    generalize keyChar r.toDecoder scan = c
    by_cases hc : c = 0
    · simp [waiting, hq, hc]
    · split_ifs <;> simp_all [waiting]

theorem Fallback.getc_left (r : Reader) : left r = (getc r).1.toList ++ left (getc r).2 := by
  unfold getc
  split_ifs with hq
  · simp [left, waiting, hq]
  · have hnil : r.queued = 0 := by simpa using hq
    cases hpoll : r.port.poll with
    | mk byte port =>
      cases byte with
      | none =>
        have hcodes := poll_none 1000 (congrArg Prod.fst hpoll)
        rw [hpoll] at hcodes
        simp [left, hcodes]
      | some scan =>
        have hcodes := codes_poll 1000 (congrArg Prod.fst hpoll)
        rw [hpoll] at hcodes
        by_cases hext : scan = 0xE0
        · rw [if_pos hext] at hcodes
          simp [left, hcodes, ps2Process, hext]
        · rw [if_neg hext] at hcodes
          obtain ⟨hdecoder, hport, hchars⟩ := ps2Process_strike (r := { r with port := port }) hext hnil
          simp only [hnil] at hdecoder hport hchars
          simp only [left, hcodes, hnil, typed, hdecoder, hport, hchars]
          simp [waiting]

theorem Odigos.press_typed {r : Reader} {scan c : UInt8} (hmod : modifier r.toDecoder scan = none)
    (hc : keyChar r.toDecoder scan = c) (hne : c ≠ 0) (keys : List UInt8) :
    Odigos.typed r.toDecoder r.queued (scan :: keys) =
      (press r c).1.toList ++ Odigos.typed (press r c).2.toDecoder (press r c).2.queued keys := by
  unfold press
  simp only [Odigos.typed, strike, hmod, hc, hne, if_false]
  split_ifs <;> simp_all

theorem Odigos.drain_left (n : Nat) (r : Reader) :
    left r = (kbdDrainToChar n r).1.toList ++ left (kbdDrainToChar n r).2 := by
  induction n generalizing r with
  | zero => rfl
  | succ n ih =>
    unfold kbdDrainToChar
    cases hpoll : r.port.poll with
    | mk byte port =>
      cases byte with
      | none =>
        have hcodes := poll_none 8 (congrArg Prod.fst hpoll)
        rw [hpoll] at hcodes
        simp [left, hcodes]
      | some scan =>
        have hcodes := codes_poll 8 (congrArg Prod.fst hpoll)
        rw [hpoll] at hcodes
        dsimp only at hcodes ⊢
        by_cases hext : scan = 0xE0
        · rw [if_pos hext] at hcodes ⊢
          rw [← ih]
          simp [left, hcodes]
        rw [if_neg hext] at hcodes ⊢
        cases hmod : modifier r.toDecoder scan with
        | some d =>
          dsimp only
          rw [← ih]
          simp [left, hcodes, Odigos.typed, strike, hmod]
        | none =>
          dsimp only
          split_ifs with hc
          · rw [← ih]
            simp [left, hcodes, Odigos.typed, strike, hmod, hc]
          · have hpress := press_typed (r := { r with port := port }) hmod rfl hc (port.codes 8)
            have hport : (press { r with port := port } (keyChar r.toDecoder scan)).2.port = port := by
              unfold press
              split_ifs <;> rfl
            unfold left
            rw [hcodes, hpress]
            cases hchar : press { r with port := port } (keyChar r.toDecoder scan) with
            | mk char r' =>
              rw [hchar] at hport
              dsimp only at hport
              cases char with
              | none =>
                have hrest := ih r'
                unfold left at hrest
                rw [hport] at hrest
                simpa using hrest
              | some c => simp [hport]

theorem Odigos.kbdHandler_left (r : Reader) :
    left r = (kbdHandler r).1.toList ++ left (kbdHandler r).2 := drain_left 64 r

/-! ## Requests until no key is reported -/

def Port.size (p : Port) : Nat := 2 * p.bytes.length + p.come.length

/-- What requests still have to take. -/
def Reader.size (r : Reader) : Nat := r.port.size + (waiting r.queued).length

theorem length_waiting_le (q : UInt8) : (waiting q).length ≤ 1 := by
  unfold waiting
  split_ifs <;> simp

theorem poll_size (p : Port) : p.poll.2.size ≤ p.size ∧ (p.bytes ≠ [] → p.poll.2.size < p.size) := by
  obtain ⟨bytes, come⟩ := p
  match come, bytes with
  | [], [] | true :: come, [] => simp [Port.poll, Port.size]
  | false :: come, bytes => simp [Port.poll, Port.size]
  | [], b :: bytes | true :: come, b :: bytes =>
    refine ⟨?_, fun _ => ?_⟩
    all_goals
      simp only [Port.poll, Port.size, List.length_cons, List.tail_cons, List.tail_nil, List.length_nil]
      omega

theorem poll_some_size {p : Port} {b : UInt8} (h : p.poll.1 = some b) : p.poll.2.size + 2 ≤ p.size := by
  obtain ⟨hbytes, hcome⟩ := poll_some h
  have hless := (List.dropWhile_suffix (!·) (l := p.come)).length_le
  unfold Port.size
  rw [hbytes, hcome, later, List.length_cons, List.length_tail]
  omega

theorem skip_size (n : Nat) (p : Port) : (p.skip n).size ≤ p.size := by
  induction n generalizing p with
  | zero => exact Nat.le_refl _
  | succ n ih =>
    have hpoll := (poll_size p).1
    unfold Port.skip
    cases hbyte : p.poll with
    | mk byte port =>
      rw [hbyte] at hpoll
      cases byte with
      | some b => exact hpoll
      | none => exact Nat.le_trans (ih port) hpoll

theorem Fallback.press_size (r : Reader) (c : UInt8) : (press r c).2.size ≤ r.size + 1 := by
  have hc := length_waiting_le c
  unfold press Reader.size
  split_ifs <;> dsimp only <;> omega

theorem Odigos.press_size (r : Reader) (c : UInt8) : (press r c).2.size ≤ r.size + 1 := by
  have hc := length_waiting_le c
  have hzero : (waiting 0).length = 0 := rfl
  unfold press Reader.size
  split_ifs <;> dsimp only <;> omega

theorem Fallback.ps2Process_size (r : Reader) (scan : UInt8) : (ps2Process r scan).2.size ≤ r.size + 1 := by
  unfold ps2Process
  by_cases hext : scan = 0xE0
  · rw [if_pos hext]
    have hskip := skip_size 1000 r.port
    unfold Reader.size
    dsimp only
    omega
  rw [if_neg hext]
  cases modifier r.toDecoder scan with
  | some d => exact Nat.le_succ _
  | none =>
    dsimp only
    split_ifs
    · exact Nat.le_succ _
    · exact press_size r _

theorem Fallback.getc_progress (r : Reader) :
    (r.port.bytes = [] ∧ (getc r).1 = none) ∨ (getc r).2.size < r.size := by
  unfold getc
  split_ifs with hq
  · exact Or.inr (by simp [Reader.size, waiting, hq])
  · cases hpoll : r.port.poll with
    | mk byte port =>
      cases byte with
      | none =>
        have hless := (poll_size r.port).2
        rw [hpoll] at hless
        by_cases hbytes : r.port.bytes = []
        · exact Or.inl ⟨hbytes, rfl⟩
        · exact Or.inr (Nat.add_lt_add_right (hless hbytes) _)
      | some scan =>
        have hless := poll_some_size (congrArg Prod.fst hpoll)
        have hprocess := ps2Process_size { r with port := port } scan
        rw [hpoll] at hless
        unfold Reader.size at *
        dsimp only at hless hprocess ⊢
        omega

theorem Odigos.drain_size (n : Nat) (r : Reader) : (kbdDrainToChar n r).2.size ≤ r.size ∧
    (r.port.bytes ≠ [] → 0 < n → (kbdDrainToChar n r).2.size < r.size) := by
  induction n generalizing r with
  | zero => exact ⟨Nat.le_refl _, fun _ h => absurd h (Nat.lt_irrefl 0)⟩
  | succ n ih =>
    have hpoll := poll_size r.port
    unfold kbdDrainToChar
    cases hbyte : r.port.poll with
    | mk byte port =>
      rw [hbyte] at hpoll
      cases byte with
      | none => exact ⟨Nat.add_le_add_right hpoll.1 _, fun h _ => Nat.add_lt_add_right (hpoll.2 h) _⟩
      | some scan =>
        have hless := poll_some_size (congrArg Prod.fst hbyte)
        rw [hbyte] at hless
        dsimp only at hless ⊢
        have hskip := skip_size 8 port
        have hall : ∀ r' : Reader, r'.size < r.size → (kbdDrainToChar n r').2.size < r.size :=
          fun r' h => Nat.lt_of_le_of_lt (ih r').1 h
        have hread : ∀ r' : Reader, r'.queued = r.queued → r'.port.size ≤ port.size →
            (kbdDrainToChar n r').2.size < r.size := by
          intro r' hq hport
          refine hall r' ?_
          unfold Reader.size
          rw [hq]
          omega
        suffices h : (kbdDrainToChar (n + 1) r).2.size < r.size by
          unfold kbdDrainToChar at h
          rw [hbyte] at h
          exact ⟨Nat.le_of_lt h, fun _ _ => h⟩
        unfold kbdDrainToChar
        rw [hbyte]
        dsimp only
        by_cases hext : scan = 0xE0
        · rw [if_pos hext]
          exact hread _ rfl hskip
        rw [if_neg hext]
        cases modifier r.toDecoder scan with
        | some d => exact hread _ rfl (Nat.le_refl _)
        | none =>
          dsimp only
          split_ifs
          · exact hread _ rfl (Nat.le_refl _)
          have hpress := press_size { r with port := port } (keyChar r.toDecoder scan)
          cases hchar : press { r with port := port } (keyChar r.toDecoder scan) with
          | mk char r' =>
            rw [hchar] at hpress
            have hr : r'.size < r.size := by
              unfold Reader.size at hpress ⊢
              dsimp only at hpress
              omega
            cases char with
            | none => exact hall r' hr
            | some c => exact hr

theorem Odigos.kbdHandler_progress (r : Reader) :
    (r.port.bytes = [] ∧ (kbdHandler r).1 = none) ∨ (kbdHandler r).2.size < r.size := by
  by_cases hbytes : r.port.bytes = []
  · refine Or.inl ⟨hbytes, ?_⟩
    have hpoll : r.port.poll.1 = none := by
      obtain ⟨decoder, queued, bytes, come⟩ := r
      subst hbytes
      match come with
      | [] | true :: come | false :: come => rfl
    unfold kbdHandler kbdDrainToChar
    cases hbyte : r.port.poll with
    | mk byte port =>
      rw [hbyte] at hpoll
      subst hpoll
      rfl
  · exact Or.inr ((drain_size 64 r).2 hbytes (by decide))

section

variable {get : Reader → Option UInt8 × Reader} {left : Reader → List UInt8}

theorem requests_left (hleft : ∀ r, left r = (get r).1.toList ++ left (get r).2) (n : Nat) (r : Reader) :
    left r = (requests get n r).1 ++ left (requests get n r).2 := by
  induction n generalizing r with
  | zero => rfl
  | succ n ih =>
    rw [hleft, ih (get r).2]
    simp [requests]

theorem produces_iff (hleft : ∀ r, left r = (get r).1.toList ++ left (get r).2)
    (hdone : ∀ r, r.port.bytes = [] → (get r).1 = none → left r = [])
    (hprogress : ∀ r, (r.port.bytes = [] ∧ (get r).1 = none) ∨ (get r).2.size < r.size)
    (r : Reader) (t : List UInt8) : Produces get r t ↔ t = left r := by
  constructor
  · rintro ⟨n, rfl, hbytes, hnone⟩
    have hall := requests_left hleft n r
    rw [hdone _ hbytes hnone, List.append_nil] at hall
    exact hall.symm
  · rintro rfl
    have hends : ∀ size r, r.size ≤ size →
        ∃ n, (requests get n r).2.port.bytes = [] ∧ (get (requests get n r).2).1 = none := by
      intro size
      induction size with
      | zero =>
        intro r hr
        rcases hprogress r with h | h
        · exact ⟨0, h⟩
        · omega
      | succ size ih =>
        intro r hr
        rcases hprogress r with h | h
        · exact ⟨0, h⟩
        · obtain ⟨n, hn⟩ := ih (get r).2 (by omega)
          exact ⟨n + 1, hn⟩
    obtain ⟨n, hbytes, hnone⟩ := hends r.size r (Nat.le_refl _)
    have hall := requests_left hleft n r
    rw [hdone _ hbytes hnone, List.append_nil] at hall
    exact ⟨n, hall.symm, hbytes, hnone⟩

end

theorem codes_nil {p : Port} (n : Nat) (h : p.bytes = []) : p.codes n = [] := by
  unfold Port.codes
  rw [h]
  rfl

theorem Fallback.produces_iff (r : Reader) (t : List UInt8) : Produces getc r t ↔ t = left r := by
  refine Device.produces_iff getc_left (fun r hbytes hnone => ?_) getc_progress r t
  have hq : r.queued = 0 := by
    by_contra hq
    unfold getc at hnone
    rw [if_pos hq] at hnone
    cases hnone
  unfold left
  rw [codes_nil 1000 hbytes, hq]
  rfl

theorem Odigos.produces_iff (r : Reader) (t : List UInt8) : Produces kbdHandler r t ↔ t = left r := by
  refine Device.produces_iff kbdHandler_left (fun r hbytes _ => ?_) kbdHandler_progress r t
  unfold left
  rw [codes_nil 8 hbytes]
  rfl

/-! ## What can become of the byte after 0xE0 -/

/-- The key codes that a reader may take: 0xE0 goes, and so does the byte after it, unless it is late. -/
inductive Reading : List UInt8 → List UInt8 → Prop
  | nil : Reading [] []
  | key {b : UInt8} {rest keys : List UInt8} : b ≠ 0xE0 → Reading rest keys → Reading (b :: rest) (b :: keys)
  | prompt {next : UInt8} {rest keys : List UInt8} : Reading rest keys → Reading (0xE0 :: next :: rest) keys
  | late {rest keys : List UInt8} : Reading rest keys → Reading (0xE0 :: rest) keys

theorem codes_reading (n : Nat) (bytes : List UInt8) (come : List Bool) :
    Reading bytes (codes n bytes come) := by
  induction bytes, come using codes.induct n with
  | case1 come => exact .nil
  | case2 come => exact .late .nil
  | case3 b come hb =>
    unfold codes
    rw [if_neg hb]
    exact .key hb .nil
  | case4 next rest come hprompt ih =>
    unfold codes
    rw [if_pos rfl, if_pos hprompt]
    exact .prompt ih
  | case5 next rest come hlate ih =>
    unfold codes
    rw [if_pos rfl, if_neg hlate]
    exact .late ih
  | case6 b next rest come hb ih =>
    unfold codes
    rw [if_neg hb]
    exact .key hb ih

theorem reading_codes {n : Nat} (hn : 0 < n) {bytes keys : List UInt8} (h : Reading bytes keys) :
    ∃ come, codes n bytes come = keys := by
  induction h with
  | nil => exact ⟨[], rfl⟩
  | key hb _ ih =>
    obtain ⟨come, rfl⟩ := ih
    exact ⟨true :: come, codes_cons n hb _ _⟩
  | prompt _ ih =>
    obtain ⟨come, rfl⟩ := ih
    exact ⟨true :: true :: come, by simp [codes, later, Device.prompt, hn]⟩
  | @late rest keys hrest ih =>
    obtain ⟨come, rfl⟩ := ih
    cases rest with
    | nil => exact ⟨[], rfl⟩
    | cons next rest =>
      refine ⟨true :: (List.replicate n false ++ come), ?_⟩
      have hlate : Device.prompt n (List.replicate n false ++ come) = false := by
        unfold Device.prompt
        rw [List.takeWhile_append_of_pos (by simp)]
        simp
      simp [codes, later, hlate]

/-! ## The result -/

theorem left_boot (bytes : List UInt8) (come : List Bool) :
    Odigos.left (.boot bytes come) = Odigos.typed .start 0 (codes 8 bytes come) ∧
      Fallback.left (.boot bytes come) = typed .start (codes 1000 bytes come) := ⟨rfl, rfl⟩

theorem agree_iff_typed (bytes : List UInt8) :
    Agree bytes ↔ ∀ comeD comeK,
      Odigos.typed .start 0 (codes 8 bytes comeD) = typed .start (codes 1000 bytes comeK) := by
  unfold Agree
  refine forall_congr' fun comeD => forall_congr' fun comeK => ?_
  simp only [Odigos.produces_iff, Fallback.produces_iff]
  rw [(left_boot bytes comeD).1, (left_boot bytes comeK).2]
  constructor
  · rintro ⟨text, hD, hK⟩
    rw [(hD _).mp rfl, (hK _).mp rfl]
  · intro h
    exact ⟨_, fun t => Iff.rfl, fun t => by rw [h]⟩

theorem reading_plain {bytes : List UInt8} (h : 0xE0 ∉ bytes) {keys : List UInt8} :
    Reading bytes keys ↔ keys = bytes := by
  induction bytes generalizing keys with
  | nil =>
    constructor
    · rintro ⟨⟩
      rfl
    · rintro rfl
      exact .nil
  | cons b rest ih =>
    simp only [List.mem_cons, not_or] at h
    constructor
    · intro hread
      cases hread with
      | key _ hrest => rw [(ih h.2).mp hrest]
      | prompt _ => exact absurd rfl h.1
      | late _ => exact absurd rfl h.1
    · rintro rfl
      exact .key (Ne.symm h.1) ((ih h.2).mpr rfl)

theorem agree_plain_iff {bytes : List UInt8} (h : 0xE0 ∉ bytes) : Agree bytes ↔ Unpaired .start bytes := by
  have hcodes : ∀ n come, codes n bytes come = bytes :=
    fun n come => (reading_plain h).mp (codes_reading n bytes come)
  rw [agree_iff_typed]
  simp only [hcodes, odigos_typed_eq_iff, forall_const]

theorem decoders_agree_iff (bytes : List UInt8) :
    Agree bytes ↔
      ∃ text, ∀ keys, Reading bytes keys → Unpaired .start keys ∧ typed .start keys = text := by
  rw [agree_iff_typed]
  constructor
  · intro h
    refine ⟨typed .start (codes 1000 bytes []), fun keys hkeys => ?_⟩
    obtain ⟨comeD, hD⟩ := reading_codes (show 0 < 8 by decide) hkeys
    obtain ⟨comeK, hK⟩ := reading_codes (show 0 < 1000 by decide) hkeys
    have hsame := h comeD comeK
    rw [hD, hK] at hsame
    have hunpaired := (odigos_typed_eq_iff _ _).mp hsame
    refine ⟨hunpaired, ?_⟩
    rw [← h comeD [], hD, odigos_typed_of_unpaired hunpaired]
  · rintro ⟨text, h⟩ comeD comeK
    obtain ⟨hunpaired, hD⟩ := h _ (codes_reading 8 bytes comeD)
    rw [odigos_typed_of_unpaired hunpaired, hD, (h _ (codes_reading 1000 bytes comeK)).2]

/-- An accent and two letters: the driver loses the second of them. -/
theorem decoders_disagree : ¬ Agree [0x28, 0x1E, 0x30] := by
  intro h
  obtain ⟨text, hD, hK⟩ := h [] []
  have hdriver := (hD [0x27, 0x61]).mp ⟨3, by decide +kernel⟩
  have hkernel := (hK [0x27, 0x61, 0x62]).mp ⟨4, by decide +kernel⟩
  rw [← hkernel] at hdriver
  exact absurd hdriver (by decide)

end Siathos.Device
