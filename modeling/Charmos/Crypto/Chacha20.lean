import Mathlib

/-!
# ChaCha20, twice

`chacha20.c` encrypts with the key stream of ChaCha20, and `prng.c` has a block function of its own
for random numbers. Both give the same stream: encryption is the exclusive or with it, so it undoes
itself and can be done in pieces of whole blocks, and the numbers of a freshly seeded generator are
the encryption of zeros (`one_key_stream`).

The two block functions are one definition with the rotations as arguments, the only difference. A
number is its eight bytes in memory.
-/

namespace Charmos.Crypto

open List Function

abbrev State := Fin 16 → UInt32

section

variable (r₁ r₂ r₃ r₄ : UInt32 → UInt32)

/-- The macro `QR`. -/
def qr (a b c d : Fin 16) (x : State) : State :=
  let x := update x a (x a + x b)
  let x := update x d (r₁ (x d ^^^ x a))
  let x := update x c (x c + x d)
  let x := update x b (r₂ (x b ^^^ x c))
  let x := update x a (x a + x b)
  let x := update x d (r₃ (x d ^^^ x a))
  let x := update x c (x c + x d)
  update x b (r₄ (x b ^^^ x c))

/-- A column round and a diagonal round. -/
def doubleRound (x : State) : State :=
  let qr := qr r₁ r₂ r₃ r₄
  let x := qr 3 7 11 15 (qr 2 6 10 14 (qr 1 5 9 13 (qr 0 4 8 12 x)))
  qr 3 4 9 14 (qr 2 7 8 13 (qr 1 6 11 12 (qr 0 5 10 15 x)))

def store32Le (val : UInt32) : List UInt8 :=
  [val.toUInt8, (val >>> 8).toUInt8, (val >>> 16).toUInt8, (val >>> 24).toUInt8]

def block (input : State) : List UInt8 :=
  let x := (doubleRound r₁ r₂ r₃ r₄)^[10] input
  (finRange 16).flatMap fun i => store32Le (x i + input i)

end

def rotl32 (n v : UInt32) : UInt32 := v <<< n ||| v >>> (32 - n)

/-- The block function of `chacha20.c`. -/
def chacha20Block : State → List UInt8 := block (rotl32 16) (rotl32 12) (rotl32 8) (rotl32 7)

/-- The block function of `prng.c`. -/
def chacha20GenerateBlock : State → List UInt8 :=
  block (fun d => d <<< 16 ||| d >>> 16) (fun b => b <<< 12 ||| b >>> 20)
    (fun d => d <<< 8 ||| d >>> 24) fun b => b <<< 7 ||| b >>> 25

def load32Le (src : ℕ → UInt8) (i : ℕ) : UInt32 :=
  (src i).toUInt32 ||| (src (i + 1)).toUInt32 <<< 8 ||| (src (i + 2)).toUInt32 <<< 16 |||
    (src (i + 3)).toUInt32 <<< 24

def sigma (i : ℕ) : UInt8 := ("expand 32-byte k".toList.getD i ' ').toNat.toUInt8

def chacha20InitState (key nonce : ℕ → UInt8) (counter : UInt32) : State := fun i =>
  if i < 4 then load32Le sigma (4 * i)
  else if i < 12 then load32Le key (4 * (i - 4))
  else if i = 12 then counter
  else load32Le nonce (4 * (i - 13))

def chacha20Encrypt (key nonce : ℕ → UInt8) (counter : UInt32) (input : List UInt8) : List UInt8 :=
  if input = [] then []
  else
    zipWith (· ^^^ ·) (input.take 64) (chacha20Block (chacha20InitState key nonce counter)) ++
      chacha20Encrypt key nonce (counter + 1) (input.drop 64)
termination_by input.length
decreasing_by
  rw [length_drop]
  have := length_pos_iff.mpr ‹_›
  omega

structure PrngCore where
  state : State
  buffer : List UInt8
  pos : ℕ

/-- The key that `prng_seed` makes; a seed of 0 is the time stamp. -/
def seedKey (seed tsc : UInt64) (coreId : UInt32) (j : ℕ) : UInt8 :=
  let seed := if seed = 0 then tsc else seed
  let i := (j / 8 * 8).toUInt64
  match j % 8 with
  | 0 => (seed >>> i).toUInt8
  | 1 => (seed >>> (i + 8)).toUInt8
  | 2 | 3 => (tsc >>> (i + 32)).toUInt8
  | 4 => (coreId >>> i.toUInt32).toUInt8
  | 5 => (coreId >>> (i + 4).toUInt32).toUInt8
  | 6 => (tsc >>> (i + 16)).toUInt8
  | _ => (tsc >>> (i + 24)).toUInt8

def prngSeed (seed tsc : UInt64) (coreId : UInt32) : PrngCore where
  state i := if i < 4 then load32Le sigma (4 * i) else
    if i < 12 then load32Le (seedKey seed tsc coreId) (4 * (i - 4)) else 0
  buffer := []
  pos := 64

def prngNext (p : PrngCore) : List UInt8 × PrngCore :=
  let p := if 64 ≤ p.pos then
      ⟨update p.state 12 (p.state 12 + 1), chacha20GenerateBlock p.state, 0⟩
    else p
  ((p.buffer.drop p.pos).take 8, { p with pos := p.pos + 8 })

/-- The bytes of the next numbers. -/
def prngBytes : ℕ → PrngCore → List UInt8
  | 0, _ => []
  | n + 1, p => (prngNext p).1 ++ prngBytes n (prngNext p).2

variable {key nonce : ℕ → UInt8} {counter : UInt32} {input : List UInt8}

theorem chacha20GenerateBlock_eq : chacha20GenerateBlock = chacha20Block := rfl

theorem length_chacha20Block (s : State) : (chacha20Block s).length = 64 := by
  rw [chacha20Block, block, length_flatMap]
  simp [store32Le]

/-- The blocks of the key stream from a counter on. -/
def keystream (key nonce : ℕ → UInt8) : UInt32 → ℕ → List UInt8
  | _, 0 => []
  | counter, n + 1 =>
    chacha20Block (chacha20InitState key nonce counter) ++ keystream key nonce (counter + 1) n

theorem length_keystream (n : ℕ) : (keystream key nonce counter n).length = 64 * n := by
  induction n generalizing counter with
  | zero => rfl
  | succ n ih =>
    rw [keystream, length_append, length_chacha20Block, ih]
    ring

theorem keystream_add (k m : ℕ) : keystream key nonce counter (k + m) =
    keystream key nonce counter k ++ keystream key nonce (counter + UInt32.ofNat k) m := by
  induction k generalizing counter with
  | zero => simp [keystream]
  | succ k ih =>
    have hnext : counter + 1 + UInt32.ofNat k = counter + UInt32.ofNat (k + 1) := by
      rw [UInt32.ofNat_add, add_assoc, add_comm 1]
      rfl
    rw [Nat.add_right_comm, keystream, ih, hnext, keystream, append_assoc]

theorem zipWith_append_right {α : Type} (f : α → α → α) (l a b : List α) :
    zipWith f l (a ++ b) = zipWith f (l.take a.length) a ++ zipWith f (l.drop a.length) b := by
  induction a generalizing l with
  | nil => simp
  | cons x a ih => cases l <;> simp [ih]

/-- Encryption is the exclusive or with the key stream. -/
theorem chacha20Encrypt_eq {n : ℕ} (h : input.length ≤ 64 * n) :
    chacha20Encrypt key nonce counter input =
      zipWith (· ^^^ ·) input (keystream key nonce counter n) := by
  induction n generalizing counter input with
  | zero =>
    obtain rfl := length_eq_zero_iff.mp (Nat.le_zero.mp h)
    rw [chacha20Encrypt, if_pos rfl, zipWith_nil_left]
  | succ n ih =>
    rw [chacha20Encrypt, keystream, zipWith_append_right, length_chacha20Block,
      ih (by rw [length_drop]; omega)]
    split_ifs with hnil
    · simp [hnil]
    · rfl

theorem take_append_take {α : Type} {x k : List α} (n : ℕ) (h : 8 ≤ x.length) :
    x.take 8 ++ (x.drop 8 ++ k).take (8 * n) = (x ++ k).take (8 * (n + 1)) := by
  rw [Nat.mul_succ, Nat.add_comm, take_add, take_append_of_le_length h, drop_append_of_le_length h]

/-- The generator gives what is left in its buffer, and then the stream from its counter on. -/
theorem prngBytes_eq {p : PrngCore} {n m : ℕ} (hstate : p.state = chacha20InitState key 0 counter)
    (hlen : p.buffer.length ≤ 64) (hfull : p.pos < 64 → p.buffer.length = 64 ∧ 8 ∣ p.pos)
    (h : n ≤ m) : prngBytes n p =
      (p.buffer.drop p.pos ++ keystream key 0 counter m).take (8 * n) := by
  induction n generalizing p counter m with
  | zero => simp [prngBytes]
  | succ n ih =>
    rw [prngBytes, prngNext]
    split_ifs with hpos
    · obtain ⟨m, rfl⟩ := Nat.exists_eq_succ_of_ne_zero (Nat.ne_of_gt (Nat.zero_lt_of_lt h))
      have hb := length_chacha20Block p.state
      have hnext : update p.state 12 (p.state 12 + 1) = chacha20InitState key 0 (counter + 1) := by
        rw [hstate]
        funext i
        by_cases hi : i = 12 <;> simp [hi, chacha20InitState]
      rw [drop_eq_nil_of_le (hlen.trans hpos), nil_append, keystream, ← hstate,
        chacha20GenerateBlock_eq, ih hnext hb.le (fun _ => ⟨hb, dvd_rfl⟩) (m := m) (by omega)]
      exact take_append_take n (by simp [hb])
    · obtain ⟨hb, hdvd⟩ := hfull (not_le.mp hpos)
      rw [ih (p := ⟨_, _, p.pos + 8⟩) hstate hlen (fun _ => ⟨hb, hdvd.add dvd_rfl⟩)
        (m := m) (by omega), ← drop_drop]
      exact take_append_take n (by rw [length_drop]; omega)

/-- The two implementations have one key stream, and encryption is the exclusive or with it. -/
theorem one_key_stream (key nonce : ℕ → UInt8) (counter : UInt32) (input : List UInt8) :
    chacha20Encrypt key nonce counter (chacha20Encrypt key nonce counter input) = input ∧
    (∀ k, chacha20Encrypt key nonce counter input =
      chacha20Encrypt key nonce counter (input.take (64 * k)) ++
        chacha20Encrypt key nonce (counter + UInt32.ofNat k) (input.drop (64 * k))) ∧
    ∀ n seed tsc coreId, prngBytes n (prngSeed seed tsc coreId) =
      chacha20Encrypt (seedKey seed tsc coreId) 0 0 (replicate (8 * n) 0) := by
  have hlen : input.length ≤ 64 * input.length := by omega
  refine ⟨?_, fun k => ?_, fun n seed tsc coreId => ?_⟩
  · rw [chacha20Encrypt_eq hlen, chacha20Encrypt_eq (n := input.length) (by simp; omega)]
    refine ext_getElem ?_ fun i hi _ => ?_
    · simp [length_keystream]
      omega
    · simp
  · rw [chacha20Encrypt_eq (n := k + input.length) (by omega), keystream_add, zipWith_append_right,
      length_keystream, ← chacha20Encrypt_eq (by simp), ← chacha20Encrypt_eq (by simp; omega)]
  · rw [chacha20Encrypt_eq (n := n) (by simp; omega)]
    have hseed : (prngSeed seed tsc coreId).state =
        chacha20InitState (seedKey seed tsc coreId) 0 0 := by
      funext i
      simp [prngSeed, chacha20InitState, load32Le]
    rw [prngBytes_eq hseed (Nat.zero_le _) (absurd · (Nat.lt_irrefl _)) le_rfl (n := n)]
    refine ext_getElem ?_ fun i hi _ => ?_
    · simp [length_keystream, prngSeed]
    · simp [prngSeed]

end Charmos.Crypto
