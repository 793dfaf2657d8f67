import MoonMessenger.KeyOrder
import MoonMessenger.Lib.Runs

/-!
# Ids of new children

`FNextPushId.get`, by which `childByAutoId` names the messages of a conversation: eight
characters of time and twelve random ones, which are counted up while the millisecond
lasts.

* `autoIds_increasing` — on every device later ids come later in the order of keys, and
  over all devices the ids stand in the order of their times;
* `countsUp_iff` — how many ids a device can make in one millisecond.
-/

namespace MoonMessenger

/-- `PUSH_CHARS` -/
def pushChars : List Char :=
  "-0123456789ABCDEFGHIJKLMNOPQRSTUVWXYZ_abcdefghijklmnopqrstuvwxyz".toList

theorem length_pushChars : pushChars.length = 64 := by decide

/-- `characterAtIndex:`, of `PUSH_CHARS`. -/
def pushChar (d : Fin 64) : Char := pushChars.get (d.cast length_pushChars.symm)

/-- `lastRandChars` -/
abbrev RandChars : Type := { ds : List (Fin 64) // ds.length = 12 }

namespace RandChars

/-- Twelve random characters; `rand i` is what `arc4random() % 64` was for the one number
`i`. -/
def draw (rand : ℕ → Fin 64) : RandChars := ⟨(List.range 12).map rand, by simp⟩

/-- One is added to the last character, after the loop over those that are the greatest.
Where all of them are, the source writes in front of the array: `none`. -/
def next (r : RandChars) : Option RandChars :=
  match h : Radix.increment r.val with
  | some ds => some ⟨ds, (Radix.of_increment_eq_some h).1.trans r.property⟩
  | none => none

theorem value_of_next {r r' : RandChars} (h : r.next = some r') :
    Radix.value r'.val = Radix.value r.val + 1 := by
  rw [next] at h
  split at h
  · rename_i ds hds
    obtain rfl := Option.some.inj h
    exact (Radix.of_increment_eq_some hds).2
  · cases h

theorem next_eq_none_iff {r : RandChars} : r.next = none ↔ Radix.value r.val + 1 = 64 ^ 12 := by
  have hinc : Radix.increment r.val = none ↔ Radix.value r.val + 1 = 64 ^ r.val.length :=
    Radix.increment_eq_none_iff
  rw [r.property] at hinc
  rw [← hinc, next]
  split
  · rename_i ds hds
    simp [hds]
  · rename_i hds
    simp [hds]

end RandChars

/-- The variables of `FNextPushId`. -/
structure FNextPushId where
  lastPushTime : ℕ
  lastRandChars : RandChars

namespace FNextPushId

/-- They are zero at launch. -/
def launch : FNextPushId := ⟨0, ⟨List.replicate 12 0, by simp⟩⟩

/-- The characters of a time and of random numbers. -/
def chars (time : ℕ) (r : RandChars) : List (Fin 64) := Radix.digits 8 time ++ r.val

/-- The id with these characters. -/
def text (ds : List (Fin 64)) : String := String.ofList (ds.map pushChar)

/-- The random characters of a call of `get:`; `duplicateTime` is that the time is the last
one. -/
def randChars (s : FNextPushId) (now : ℕ) (rand : ℕ → Fin 64) : Option RandChars :=
  if now = s.lastPushTime then s.lastRandChars.next else some (.draw rand)

/-- `get:`, at a time in milliseconds. -/
def get (s : FNextPushId) (now : ℕ) (rand : ℕ → Fin 64) : Option (String × FNextPushId) :=
  (s.randChars now rand).map fun lastRandChars =>
    (text (chars now lastRandChars), ⟨now, lastRandChars⟩)

/-! ## The order of ids -/

/-- The characters grow with their indices. -/
theorem pushChar_lt {d e : Fin 64} (h : d < e) : (pushChar d).toNat < (pushChar e).toNat := by
  revert d e
  decide +kernel

theorem utf16_pushChar (d : Fin 64) : utf16 (pushChar d) = [(pushChar d).toNat] := by
  revert d
  decide +kernel

theorem unichars_text (ds : List (Fin 64)) :
    unichars (text ds) = ds.map fun d => (pushChar d).toNat := by
  rw [unichars, text, String.toList_ofList]
  induction ds with
  | nil => rfl
  | cons d ds ih => rw [List.map_cons, List.flatMap_cons, ih, utf16_pushChar]; rfl

/-- No id is an integer: it is too long. -/
theorem tryParseStringToInt_text {ds : List (Fin 64)} (h : ds.length = 20) :
    FUtilities.tryParseStringToInt (text ds) = none := by
  rw [FUtilities.tryParseStringToInt, unichars_text, List.length_map, h]
  rfl

/-- Ids stand in the order of the numbers that they are. -/
theorem compareNames_text {ds es : List (Fin 64)} (hds : ds.length = 20) (hes : es.length = 20)
    (h : Radix.value ds < Radix.value es) : FUtilities.compareNames (text ds) (text es) = .lt := by
  have hlt : ds < es := (Radix.value_lt_iff (hds.trans hes.symm)).mp h
  have hunits : unichars (text ds) < unichars (text es) := by
    rw [unichars_text, unichars_text]
    exact List.map_lt (fun d e hde => pushChar_lt hde) hlt
  rw [FUtilities.compareNames, tryParseStringToInt_text hds, tryParseStringToInt_text hes]
  exact if_pos hunits

theorem length_chars (time : ℕ) (r : RandChars) : (chars time r).length = 20 := by
  rw [chars, List.length_append, Radix.length_digits, r.property]

/-- The number that an id is. -/
theorem value_chars {time : ℕ} (r : RandChars) (h : time < 64 ^ 8) :
    Radix.value (chars time r) = time * 64 ^ 12 + Radix.value r.val := by
  rw [chars, Radix.value_append, Radix.value_digits, Nat.mod_eq_of_lt h, r.property]

theorem value_lastRandChars (r : RandChars) : Radix.value r.val < 64 ^ 12 := by
  have hlt := Radix.value_lt r.val
  rwa [r.property] at hlt

/-- The number of the last id. -/
def number (s : FNextPushId) : ℕ := Radix.value (chars s.lastPushTime s.lastRandChars)

/-- An earlier id has the smaller number. -/
theorem value_chars_lt {time time' : ℕ} {r r' : RandChars} (h : time < time')
    (hbound : time' < 64 ^ 8) : Radix.value (chars time r) < Radix.value (chars time' r') := by
  rw [value_chars r (h.trans hbound), value_chars r' hbound]
  have hr := value_lastRandChars r
  calc time * 64 ^ 12 + Radix.value r.val < (time + 1) * 64 ^ 12 := by omega
    _ ≤ time' * 64 ^ 12 := Nat.mul_le_mul_right _ h
    _ ≤ time' * 64 ^ 12 + Radix.value r'.val := Nat.le_add_right _ _

/-- **An id** has the number after that of the last one, or a later time. -/
theorem of_get_eq_some {s s' : FNextPushId} {now : ℕ} {rand : ℕ → Fin 64} {name : String}
    (h : s.get now rand = some (name, s')) (hclock : s.lastPushTime ≤ now) (hbound : now < 64 ^ 8) :
    name = text (chars now s'.lastRandChars) ∧ s'.lastPushTime = now ∧ s.number < s'.number := by
  obtain ⟨r, hr, h⟩ := Option.map_eq_some_iff.mp h
  obtain ⟨rfl, rfl⟩ := Prod.mk.inj h
  refine ⟨rfl, rfl, ?_⟩
  rw [randChars] at hr
  rw [number, number]
  split at hr
  · rename_i hdup
    subst hdup
    rw [value_chars _ hbound, value_chars _ hbound, RandChars.value_of_next hr]
    omega
  · rename_i hdup
    exact value_chars_lt (Nat.lt_of_le_of_ne hclock (Ne.symm hdup)) hbound

end FNextPushId

/-! ## All devices -/

/-- A call of `childByAutoId`. -/
structure AutoId (δ : Type) where
  device : δ
  /-- `serverTime`, in milliseconds -/
  now : ℕ
  /-- what `arc4random() % 64` returns -/
  rand : ℕ → Fin 64

/-- An id that was made. -/
structure IssuedId (δ : Type) where
  device : δ
  now : ℕ
  name : String

/-- The devices, and the ids they made. -/
structure AutoIds (δ : Type) where
  devices : δ → FNextPushId
  issued : List (IssuedId δ)

namespace AutoIds

open FNextPushId

variable {δ : Type} [DecidableEq δ]

/-- All devices are launched. -/
def launch : AutoIds δ := ⟨fun _ => .launch, []⟩

/-- `childByAutoId`, on one of the devices: the name of the child. -/
def childByAutoId (s : AutoIds δ) (c : AutoId δ) : Option (String × AutoIds δ) :=
  ((s.devices c.device).get c.now c.rand).map fun p =>
    (p.1, ⟨Function.update s.devices c.device p.2, s.issued ++ [⟨c.device, c.now, p.1⟩]⟩)

/-- One call. -/
def step (s : AutoIds δ) (c : AutoId δ) : Option (AutoIds δ) := (s.childByAutoId c).map Prod.snd

/-- What a call does. -/
theorem of_childByAutoId_eq_some {s s' : AutoIds δ} {c : AutoId δ} {name : String}
    (h : s.childByAutoId c = some (name, s')) : ∃ device,
      (s.devices c.device).get c.now c.rand = some (name, device) ∧
      s'.devices = Function.update s.devices c.device device ∧
      s'.issued = s.issued ++ [⟨c.device, c.now, name⟩] := by
  obtain ⟨⟨name', device⟩, hget, h⟩ := Option.map_eq_some_iff.mp h
  obtain ⟨rfl, rfl⟩ := Prod.mk.inj h
  exact ⟨device, hget, rfl, rfl⟩

/-- No device's clock is set back, or runs until eight characters are not enough for it. -/
structure Clocks (calls : List (AutoId δ)) : Prop where
  mono : calls.Pairwise fun c d => c.device = d.device → c.now ≤ d.now
  lt : ∀ c ∈ calls, c.now < 64 ^ 8

omit [DecidableEq δ] in
theorem Clocks.init {calls : List (AutoId δ)} {c : AutoId δ} (h : Clocks (calls ++ [c])) :
    Clocks calls :=
  ⟨(List.pairwise_append.mp h.mono).1, fun d hd => h.lt d (List.mem_append_left _ hd)⟩

omit [DecidableEq δ] in
theorem Clocks.of_isPrefix {hist calls : List (AutoId δ)} (hpre : hist <+: calls)
    (h : Clocks calls) : Clocks hist :=
  Runs.admissible_of_isPrefix (fun _ _ => Clocks.init) hpre h

/-- What the ids made so far have to do with the devices' variables: a device's last time is
one of its calls', and its ids are numbers up to that of its variables. -/
structure Invariant (calls : List (AutoId δ)) (s : AutoIds δ) : Prop where
  times : ∀ x, (s.devices x).lastPushTime = 0 ∨
    ∃ c ∈ calls, c.device = x ∧ c.now = (s.devices x).lastPushTime
  issued : ∀ a ∈ s.issued, a.now < 64 ^ 8 ∧ ∃ r, a.name = text (chars a.now r) ∧
    Radix.value (chars a.now r) ≤ (s.devices a.device).number
  calls : s.issued.map (fun a => (a.device, a.now)) = calls.map fun c => (c.device, c.now)
  increasing : s.issued.Pairwise fun a b => a.device = b.device →
    FUtilities.compareNames a.name b.name = .lt

variable {calls : List (AutoId δ)} {c : AutoId δ} {s s' : AutoIds δ}

omit [DecidableEq δ] in
theorem Invariant.lastPushTime_le (hinv : Invariant calls s) (hclocks : Clocks (calls ++ [c])) :
    (s.devices c.device).lastPushTime ≤ c.now := by
  rcases hinv.times c.device with hzero | ⟨d, hd, hdevice, htime⟩
  · rw [hzero]
    exact Nat.zero_le _
  · rw [← htime]
    exact (List.pairwise_append.mp hclocks.mono).2.2 d hd c (List.mem_singleton_self c) hdevice

/-- **One id** more, which is beyond all that its device made before. -/
theorem Invariant.childByAutoId (hinv : Invariant calls s) (hclocks : Clocks (calls ++ [c]))
    {name : String} (h : s.childByAutoId c = some (name, s')) : Invariant (calls ++ [c]) s' := by
  obtain ⟨device, hget, hdevices, hissued⟩ := of_childByAutoId_eq_some h
  have hbound := hclocks.lt c (List.mem_append_right _ (List.mem_singleton_self c))
  obtain ⟨rfl, htime, hlt⟩ := of_get_eq_some hget (hinv.lastPushTime_le hclocks) hbound
  have hself : s'.devices c.device = device := by rw [hdevices, Function.update_self]
  have hothers {x : δ} (hx : x ≠ c.device) : s'.devices x = s.devices x := by
    rw [hdevices, Function.update_of_ne hx]
  have hnumber : Radix.value (chars c.now device.lastRandChars) = device.number := by
    rw [number, htime]
  refine ⟨fun x => ?_, fun a ha => ?_, ?_, ?_⟩
  · by_cases hx : x = c.device
    · right
      refine ⟨c, by simp, hx.symm, ?_⟩
      rw [hx, hself, htime]
    · rw [hothers hx]
      refine (hinv.times x).imp_right ?_
      rintro ⟨d, hd, hdx⟩
      exact ⟨d, List.mem_append_left _ hd, hdx⟩
  · rw [hissued] at ha
    rcases List.mem_append.mp ha with ha | ha
    · obtain ⟨hnow, r, hname, hle⟩ := hinv.issued a ha
      refine ⟨hnow, r, hname, hle.trans ?_⟩
      by_cases hx : a.device = c.device
      · rw [hx, hself]
        exact hlt.le
      · rw [hothers hx]
    · obtain rfl := List.mem_singleton.mp ha
      refine ⟨hbound, device.lastRandChars, rfl, ?_⟩
      rw [hself, hnumber]
  · rw [hissued, List.map_append, List.map_append, hinv.calls]
    rfl
  · rw [hissued, List.pairwise_append]
    refine ⟨hinv.increasing, List.pairwise_singleton _ _, fun a ha b hb hab => ?_⟩
    obtain rfl := List.mem_singleton.mp hb
    obtain ⟨-, r, hname, hle⟩ := hinv.issued a ha
    rw [hname]
    refine compareNames_text (length_chars _ _) (length_chars _ _) ?_
    calc Radix.value (chars a.now r) ≤ (s.devices a.device).number := hle
      _ < device.number := by rwa [show a.device = c.device from hab]
      _ = Radix.value (chars c.now device.lastRandChars) := hnumber.symm

/-- What a run makes of the devices and the ids. -/
theorem invariant_of_run (hclocks : Clocks calls) (hrun : Runs.run step launch calls = some s) :
    Invariant calls s := by
  refine Runs.run_history (fun hist s => Invariant hist s) ?_ ?_ (List.prefix_refl _) hrun
  · exact ⟨fun x => Or.inl rfl, fun a ha => absurd ha List.not_mem_nil, rfl, List.Pairwise.nil⟩
  · rintro hist c r r' hpre - hinv hr
    obtain ⟨p, hp, rfl⟩ := Option.map_eq_some_iff.mp hr
    exact hinv.childByAutoId (.of_isPrefix hpre hclocks) hp

end AutoIds

open AutoIds FNextPushId in
/-- **Ids of new children.** However the devices take turns, each of them makes ids in the
order of keys; and of two ids, on any devices, the one of the earlier millisecond comes
first. -/
theorem autoIds_increasing {δ : Type} [DecidableEq δ] {calls : List (AutoId δ)} {s : AutoIds δ}
    (hclocks : Clocks calls) (hrun : Runs.run AutoIds.step AutoIds.launch calls = some s) :
    s.issued.map (fun a => (a.device, a.now)) = calls.map (fun c => (c.device, c.now)) ∧
      s.issued.Pairwise (fun a b => a.device = b.device →
        FUtilities.compareNames a.name b.name = .lt) ∧
      ∀ a ∈ s.issued, ∀ b ∈ s.issued, a.now < b.now →
        FUtilities.compareNames a.name b.name = .lt := by
  have hinv := invariant_of_run hclocks hrun
  refine ⟨hinv.calls, hinv.increasing, fun a ha b hb hab => ?_⟩
  obtain ⟨-, r, hname, -⟩ := hinv.issued a ha
  obtain ⟨hbound, r', hname', -⟩ := hinv.issued b hb
  rw [hname, hname']
  exact compareNames_text (length_chars _ _) (length_chars _ _) (value_chars_lt hab hbound)

/-- Two devices, one of which makes two ids in one millisecond. -/
theorem autoIds_increasing_two : ∃ s : AutoIds Bool,
    Runs.run AutoIds.step .launch
      [⟨true, 5, fun _ => 63⟩, ⟨false, 4, fun _ => 1⟩, ⟨true, 6, fun _ => 7⟩,
        ⟨true, 6, fun _ => 0⟩] = some s ∧
    s.issued.map (fun a => (a.device, a.now)) = [(true, 5), (false, 4), (true, 6), (true, 6)] ∧
    s.issued.Pairwise (fun a b => a.device = b.device →
      FUtilities.compareNames a.name b.name = .lt) ∧
    ∀ a ∈ s.issued, ∀ b ∈ s.issued, a.now < b.now →
      FUtilities.compareNames a.name b.name = .lt := by
  have hclocks : AutoIds.Clocks ([⟨true, 5, fun _ => 63⟩, ⟨false, 4, fun _ => 1⟩,
      ⟨true, 6, fun _ => 7⟩, ⟨true, 6, fun _ => 0⟩] : List (AutoId Bool)) :=
    ⟨by simp, by simp⟩
  obtain ⟨s, hs⟩ := Option.isSome_iff_exists.mp (show (Runs.run AutoIds.step .launch
    ([⟨true, 5, fun _ => 63⟩, ⟨false, 4, fun _ => 1⟩, ⟨true, 6, fun _ => 7⟩,
      ⟨true, 6, fun _ => 0⟩] : List (AutoId Bool))).isSome = true by decide +kernel)
  exact ⟨s, hs, autoIds_increasing hclocks hs⟩

/-! ## One millisecond -/

namespace FNextPushId

/-- A call of `get:` on one device. -/
structure Call where
  now : ℕ
  rand : ℕ → Fin 64

/-- What it makes of the variables. -/
def step (s : FNextPushId) (c : Call) : Option FNextPushId := (s.get c.now c.rand).map Prod.snd

/-- The call is not in the millisecond of the one before. -/
def Draws (before : List Call) (c : Call) : Prop := ∀ d ∈ before.getLast?, d.now ≠ c.now

variable {s s' : FNextPushId} {c : Call} {calls rest : List Call}

theorem step_of_eq (h : c.now = s.lastPushTime) :
    s.step c = s.lastRandChars.next.map fun r => ⟨c.now, r⟩ := by
  rw [step, get, randChars, if_pos h, Option.map_map]
  rfl

theorem step_of_ne (h : c.now ≠ s.lastPushTime) : s.step c = some ⟨c.now, .draw c.rand⟩ := by
  rw [step, get, randChars, if_neg h]
  rfl

theorem lastPushTime_of_step (h : s.step c = some s') : s'.lastPushTime = c.now := by
  by_cases hc : c.now = s.lastPushTime
  · rw [step_of_eq hc] at h
    obtain ⟨r, -, rfl⟩ := Option.map_eq_some_iff.mp h
    rfl
  · rw [step_of_ne hc] at h
    obtain rfl := Option.some.inj h
    rfl

/-- The variables hold the time of the last call. -/
theorem lastPushTime_of_run (hrun : Runs.run step launch calls = some s) :
    s.lastPushTime = (calls.getLast?.map Call.now).getD 0 := by
  rcases List.eq_nil_or_concat' calls with rfl | ⟨calls, c, rfl⟩
  · obtain rfl := Option.some.inj hrun
    rfl
  · rw [Runs.run_concat] at hrun
    obtain ⟨r, -, hr⟩ := Option.bind_eq_some_iff.mp hrun
    rw [lastPushTime_of_step hr, List.getLast?_concat]
    rfl

/-- In one millisecond the random characters are counted up. -/
theorem value_of_run (hrest : ∀ c ∈ rest, c.now = s.lastPushTime)
    (hrun : Runs.run step s rest = some s') :
    Radix.value s'.lastRandChars.val = Radix.value s.lastRandChars.val + rest.length := by
  induction rest generalizing s with
  | nil =>
    obtain rfl := Option.some.inj hrun
    rfl
  | cons c rest ih =>
    obtain ⟨r, hr, hrun⟩ := Option.bind_eq_some_iff.mp hrun
    have hc := hrest c (List.mem_cons_self ..)
    have htime := lastPushTime_of_step hr
    rw [step_of_eq hc] at hr
    obtain ⟨chars, hchars, rfl⟩ := Option.map_eq_some_iff.mp hr
    have hvalue := RandChars.value_of_next hchars
    have hrun' := ih (fun d hd => (hrest d (List.mem_cons_of_mem c hd)).trans hc.symm) hrun
    rw [hrun', List.length_cons]
    simp only
    omega

/-- The random characters drawn last, and the calls since then, all in one millisecond. -/
structure Since (calls before : List Call) (c : Call) (rest : List Call) : Prop where
  eq : calls = before ++ c :: rest
  draws : Draws before c
  same : ∀ d ∈ rest, d.now = c.now

/-- The count that the variables hold. -/
def Counts (calls : List Call) (s : FNextPushId) : Prop :=
  (calls = [] ∧ s = launch) ∨ ∃ before c rest, Since calls before c rest ∧
    s.lastPushTime = c.now ∧
    Radix.value s.lastRandChars.val = Radix.value (RandChars.draw c.rand).val + rest.length

/-- No millisecond sees more calls than numbers are left after the one drawn. -/
def Within (calls : List Call) : Prop :=
  ∀ hist before c rest, hist <+: calls → Since hist before c rest →
    Radix.value (RandChars.draw c.rand).val + rest.length < 64 ^ 12

/-- **One more call** within these bounds succeeds. -/
theorem Counts.step (h : Counts calls s) (hpos : 0 < c.now) (hwithin : Within (calls ++ [c])) :
    ∃ s', s.step c = some s' ∧ Counts (calls ++ [c]) s' := by
  by_cases hc : c.now = s.lastPushTime
  · rw [step_of_eq hc]
    rcases h with ⟨-, rfl⟩ | ⟨before, d, rest, hsince, htime, hvalue⟩
    · exact absurd hc hpos.ne'
    · -- the count goes on
      have hsince' : Since (calls ++ [c]) before d (rest ++ [c]) := by
        refine ⟨?_, hsince.draws, ?_⟩
        · rw [hsince.eq, List.append_assoc, List.cons_append]
        · rintro e he
          rcases List.mem_append.mp he with he | he
          · exact hsince.same e he
          · obtain rfl := List.mem_singleton.mp he
            exact hc.trans htime
      have hlt := hwithin _ before d _ (List.prefix_refl _) hsince'
      rw [List.length_append, List.length_singleton, ← add_assoc, ← hvalue] at hlt
      obtain ⟨r, hr⟩ := Option.ne_none_iff_exists'.mp fun hnone =>
        hlt.ne (RandChars.next_eq_none_iff.mp hnone)
      refine ⟨⟨c.now, r⟩, by rw [hr]; rfl, Or.inr ⟨before, d, _, hsince', hc.trans htime, ?_⟩⟩
      rw [List.length_append, List.length_singleton, ← add_assoc, ← hvalue]
      exact RandChars.value_of_next hr
  · -- a new count
    refine ⟨_, step_of_ne hc, Or.inr ⟨calls, c, [], ⟨rfl, ?_, by simp⟩, rfl, (add_zero _).symm⟩⟩
    intro d hd
    rcases h with ⟨rfl, -⟩ | ⟨before, e, rest, hsince, htime, -⟩
    · cases hd
    · have hd' : d ∈ e :: rest := by
        rw [hsince.eq, List.getLast?_append_cons] at hd
        exact List.mem_of_getLast? hd
      rw [htime] at hc
      rcases List.mem_cons.mp hd' with rfl | hd'
      · exact Ne.symm hc
      · rw [hsince.same d hd']
        exact Ne.symm hc

end FNextPushId

open FNextPushId in
/-- **Ids of one millisecond.** A device makes all the ids it is asked for exactly when no
millisecond sees more calls than numbers are left after the one drawn in it; else the last
of them writes in front of the array. -/
theorem countsUp_iff {calls : List Call} (hpos : ∀ c ∈ calls, 0 < c.now) :
    (∃ s, Runs.run step launch calls = some s) ↔ Within calls := by
  constructor
  · rintro ⟨s, hs⟩ hist before c rest ⟨after, rfl⟩ ⟨rfl, hdraws, hsame⟩
    rw [Runs.run_append, Runs.run_append] at hs
    obtain ⟨u, hu, -⟩ := Option.bind_eq_some_iff.mp hs
    obtain ⟨t, ht, htu⟩ := Option.bind_eq_some_iff.mp hu
    obtain ⟨r, hr, hru⟩ := Option.bind_eq_some_iff.mp htu
    have hne : c.now ≠ t.lastPushTime := by
      rw [lastPushTime_of_run ht]
      cases hlast : before.getLast? with
      | none => exact (hpos c (by simp)).ne'
      | some d => exact Ne.symm (hdraws d hlast)
    rw [step_of_ne hne] at hr
    obtain rfl := Option.some.inj hr
    rw [← value_of_run hsame hru]
    exact value_lastRandChars _
  · intro hwithin
    suffices hrun : ∃ s, Runs.run step launch calls = some s ∧ Counts calls s by
      obtain ⟨s, hs, -⟩ := hrun
      exact ⟨s, hs⟩
    refine Runs.run_induction Counts (fun calls => (∀ c ∈ calls, 0 < c.now) ∧ Within calls) ?_
      (Or.inl ⟨rfl, rfl⟩) ?_ calls ⟨hpos, hwithin⟩
    · rintro calls c ⟨hpos, hwithin⟩
      refine ⟨fun d hd => hpos d (List.mem_append_left _ hd), fun hist before d rest hpre => ?_⟩
      exact hwithin hist before d rest (hpre.trans (List.prefix_append _ _))
    · rintro calls s c hcounts ⟨hpos, hwithin⟩
      exact hcounts.step (hpos c (by simp)) hwithin

/-- The greatest number is drawn, and there is no other call in that millisecond. -/
theorem countsUp_iff_greatest :
    (∃ s, Runs.run FNextPushId.step .launch [⟨5, fun _ => 63⟩, ⟨6, fun _ => 0⟩] = some s) ↔
      FNextPushId.Within [⟨5, fun _ => 63⟩, ⟨6, fun _ => 0⟩] :=
  countsUp_iff (by simp)

end MoonMessenger
