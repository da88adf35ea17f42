import RteDemo.Eal.Tailqs

/-!
# `rte_strsplit`

One pass over the string starts a token at the first character and after every delimiter, writes a
terminator over every delimiter it comes to, and stops when there are as many tokens as wanted. What it
has gone over is then a prefix (`stopAt`): the delimiters of the prefix are overwritten and its fields are
the tokens, the last of them continued by the rest of the string (`rteStrsplit_eq`).

That keeps everything but a final delimiter, unless the last token allowed is empty: its delimiter is
overwritten in the same round, and what is behind it belongs to no token (`strsplit_noLoss_iff`).
-/

namespace EalString

open EalTailqs

/-- The buffer, the offsets of the tokens, and the flag. -/
structure Split where
  string : List UInt8
  tokens : List Nat
  tokstart : Bool
  deriving DecidableEq

/-- The body of the loop of `rte_strsplit`; `none` is the `break`. -/
def splitBody (maxtokens : Nat) (delim : UInt8) (i : Nat) (st : Split) : Option Split :=
  if st.string.getD i 0 = 0 ∨ st.tokens.length ≥ maxtokens then none
  else
    let st := if st.tokstart = true then { st with tokstart := false, tokens := st.tokens ++ [i] } else st
    some (if st.string.getD i 0 = delim then { st with string := st.string.set i 0, tokstart := true }
      else st)

/-- The loop, with the rounds that are left of `stringlen`. -/
def splitLoop (maxtokens : Nat) (delim : UInt8) : Nat → Nat → Split → Split
  | 0, _, st => st
  | n + 1, i, st =>
    match splitBody maxtokens delim i st with
    | none => st
    | some st => splitLoop maxtokens delim n (i + 1) st

/-- `rte_strsplit`; `none` is the result `-1` for a null pointer, else the result is the number of
tokens. -/
def rteStrsplit (string : Option (List UInt8)) (stringlen : Nat) (tokens : Bool) (maxtokens : Nat)
    (delim : UInt8) : Option Split :=
  match string with
  | some string => if tokens = true then some (splitLoop maxtokens delim stringlen 0 ⟨string, [], true⟩)
    else none
  | none => none

/-- The string at an offset, up to its terminator. -/
def cstr (buf : List UInt8) (q : Nat) : List UInt8 := (buf.drop q).takeWhile (· ≠ 0)

/-- The tokens, joined with the delimiter. -/
def joinTokens (delim : UInt8) : List (List UInt8) → List UInt8
  | [] => []
  | [t] => t
  | t :: t' :: ts => t ++ delim :: joinTokens delim (t' :: ts)

/-- The number of characters in which the buffer differs. -/
def overwritten (old new : List UInt8) : Nat := (old.zip new).countP fun p => p.1 ≠ p.2

/-! ## What the loop has gone over -/

section

variable {delim : UInt8}

/-- The delimiters overwritten -/
def zap (delim : UInt8) (cs : List UInt8) : List UInt8 := cs.map fun c => if c = delim then 0 else c

/-- Where tokens start; the flag says whether one starts at the first character, which is at `q`. -/
def starts (delim : UInt8) : Bool → Nat → List UInt8 → List Nat
  | _, _, [] => []
  | f, q, c :: cs => (if f = true then [q] else []) ++ starts delim (decide (c = delim)) (q + 1) cs

/-- The number of characters gone over when `room` more tokens may start. -/
def stopAt (delim : UInt8) : Nat → Bool → List UInt8 → Nat
  | _, _, [] => 0
  | room, f, c :: cs =>
    if room = 0 then 0
    else stopAt delim (if f = true then room - 1 else room) (decide (c = delim)) cs + 1

theorem noNul_cons {c : UInt8} {cs : List UInt8} : 0 ∉ c :: cs ↔ c ≠ 0 ∧ 0 ∉ cs := by
  rw [List.mem_cons, not_or, eq_comm]

/-- The loop overwrites the delimiters and starts the tokens of what it goes over. -/
theorem splitLoop_eq {maxtokens : Nat} {rest : List UInt8} : ∀ {todo pre : List UInt8} {n room : Nat}
    {tokens : List Nat} {f : Bool}, 0 ∉ todo → todo.length ≤ n → tokens.length + room = maxtokens →
      (splitLoop maxtokens delim n pre.length ⟨pre ++ todo ++ 0 :: rest, tokens, f⟩).string =
          pre ++ zap delim (todo.take (stopAt delim room f todo)) ++
            todo.drop (stopAt delim room f todo) ++ 0 :: rest ∧
        (splitLoop maxtokens delim n pre.length ⟨pre ++ todo ++ 0 :: rest, tokens, f⟩).tokens =
          tokens ++ starts delim f pre.length (todo.take (stopAt delim room f todo)) := by
  intro todo
  induction todo with
  | nil =>
    intro pre n room tokens f _ _ _
    have hstop : splitLoop maxtokens delim n pre.length ⟨pre ++ [] ++ 0 :: rest, tokens, f⟩ =
        ⟨pre ++ [] ++ 0 :: rest, tokens, f⟩ := by
      cases n with
      | zero => rfl
      | succ n =>
        have hnul : (pre ++ [] ++ 0 :: rest).getD pre.length 0 = 0 := by simp
        rw [splitLoop, splitBody, if_pos (.inl hnul)]
    rw [hstop]
    exact ⟨by simp [zap, stopAt], by simp [starts, stopAt]⟩
  | cons c todo ih =>
    intro pre n room tokens f hnul hn hroom
    obtain ⟨hc, htodo⟩ := noNul_cons.mp hnul
    obtain ⟨n, rfl⟩ := Nat.exists_eq_add_of_lt (Nat.lt_of_lt_of_le (Nat.succ_pos _) hn)
    rw [Nat.zero_add] at hn ⊢
    have hget : (pre ++ c :: todo ++ 0 :: rest).getD pre.length 0 = c := by simp
    have hset : (pre ++ c :: todo ++ 0 :: rest).set pre.length 0 = pre ++ 0 :: todo ++ 0 :: rest := by simp
    by_cases hfull : room = 0
    · -- no token may start any more
      have hmax : tokens.length ≥ maxtokens := by omega
      rw [splitLoop, splitBody, if_pos (.inr hmax)]
      exact ⟨by simp [zap, stopAt, hfull], by simp [starts, stopAt, hfull]⟩
    have hgo : ¬((pre ++ c :: todo ++ 0 :: rest).getD pre.length 0 = 0 ∨ tokens.length ≥ maxtokens) := by
      rw [hget]
      rintro (h | h)
      · exact hc h
      · omega
    -- one round: a token starts if the flag is set, and the character is a delimiter or not
    have hbody : splitBody maxtokens delim pre.length ⟨pre ++ c :: todo ++ 0 :: rest, tokens, f⟩ =
        some ⟨(pre ++ [if c = delim then 0 else c]) ++ todo ++ 0 :: rest,
          tokens ++ (if f = true then [pre.length] else []), decide (c = delim)⟩ := by
      rw [splitBody, if_neg hgo]
      by_cases hd : c = delim <;> cases f <;> simp [hd]
    have hlen : ∀ x : UInt8, (pre ++ [x]).length = pre.length + 1 := fun x => by simp
    rw [splitLoop, hbody]
    simp only
    have hrest := @ih (pre ++ [if c = delim then 0 else c]) n (if f = true then room - 1 else room)
      (tokens ++ (if f = true then [pre.length] else [])) (decide (c = delim)) htodo (by simpa using hn)
      (by cases f <;> simp <;> omega)
    rw [hlen] at hrest
    rw [hrest.1, hrest.2, stopAt, if_neg hfull]
    simp [zap, starts]

/-! ## The prefix -/

theorem stopAt_le (cs : List UInt8) : ∀ room f, stopAt delim room f cs ≤ cs.length := by
  induction cs with
  | nil => exact fun _ _ => Nat.le_refl 0
  | cons c cs ih =>
    intro room f
    rw [stopAt]
    by_cases hroom : room = 0
    · rw [if_pos hroom]
      exact Nat.zero_le _
    · rw [if_neg hroom]
      exact Nat.succ_le_succ (ih _ _)

/-- No more tokens start than may. -/
theorem starts_stopAt_le (cs : List UInt8) : ∀ room f q,
    (starts delim f q (cs.take (stopAt delim room f cs))).length ≤ room := by
  induction cs with
  | nil => exact fun _ _ _ => Nat.zero_le _
  | cons c cs ih =>
    intro room f q
    rw [stopAt]
    by_cases hroom : room = 0
    · rw [if_pos hroom]
      exact Nat.zero_le _
    · rw [if_neg hroom, List.take_succ_cons, starts, List.length_append]
      have hrest := ih (if f = true then room - 1 else room) (decide (c = delim)) (q + 1)
      cases f with
      | false => simpa using hrest
      | true =>
        simp only [if_true, List.length_singleton] at hrest ⊢
        omega

/-- The loop goes past a prefix when fewer tokens than allowed start in it. -/
theorem lt_stopAt_iff {c : UInt8} {v : List UInt8} (u : List UInt8) : ∀ room f q,
    u.length < stopAt delim room f (u ++ c :: v) ↔ (starts delim f q u).length < room := by
  induction u with
  | nil =>
    intro room f q
    rw [List.nil_append, stopAt, starts, List.length_nil]
    by_cases hroom : room = 0
    · rw [if_pos hroom, hroom]
      exact Iff.rfl
    · rw [if_neg hroom]
      exact iff_of_true (Nat.succ_pos _) (Nat.pos_of_ne_zero hroom)
  | cons a u ih =>
    intro room f q
    rw [List.cons_append, stopAt, starts]
    by_cases hroom : room = 0
    · simp [hroom]
    · rw [if_neg hroom, List.length_cons, Nat.succ_lt_succ_iff, ih _ _ (q + 1), List.length_append]
      cases f
      · simp
      · simp
        omega

/-- A token starts at the beginning, if the flag is set, and after each delimiter but a final one. -/
theorem starts_length (c : UInt8) (d : List UInt8) : ∀ f q,
    (starts delim f q (d ++ [c])).length = f.toNat + d.count delim := by
  induction d with
  | nil => intro f q; cases f <;> rfl
  | cons a d ih =>
    intro f q
    rw [List.cons_append, starts, List.length_append, ih, List.count_cons]
    by_cases ha : a = delim <;> cases f <;> simp [ha] <;> omega

/-! ## The tokens -/

/-- The fields of `cs`; a token that is open at the end goes on with `w`. -/
def fields (delim : UInt8) (w : List UInt8) : Bool → List UInt8 → List (List UInt8)
  | f, [] => if f = true then [] else [w]
  | _, c :: cs =>
    if c = delim then [] :: fields delim w true cs
    else
      match fields delim w false cs with
      | [] => []
      | t :: ts => (c :: t) :: ts

section

variable {tail orig : List UInt8}

/-- The tokens in the buffer are the fields; with the flag unset the first field is the token that was
open before. -/
theorem fields_eq (cs : List UInt8) : ∀ pre : List UInt8, 0 ∉ cs →
    fields delim (tail.takeWhile (· ≠ 0)) false cs = cstr (pre ++ zap delim cs ++ tail) pre.length ::
        (starts delim false pre.length cs).map (cstr (pre ++ zap delim cs ++ tail)) ∧
      fields delim (tail.takeWhile (· ≠ 0)) true cs =
        (starts delim true pre.length cs).map (cstr (pre ++ zap delim cs ++ tail)) := by
  induction cs with
  | nil =>
    intro pre _
    exact ⟨by simp [fields, starts, cstr, zap], by simp [fields, starts]⟩
  | cons c cs ih =>
    intro pre hnul
    obtain ⟨hc, hcs⟩ := noNul_cons.mp hnul
    have hbuf : pre ++ zap delim (c :: cs) ++ tail =
        (pre ++ [if c = delim then 0 else c]) ++ zap delim cs ++ tail := by simp [zap]
    have hfirst : fields delim (tail.takeWhile (· ≠ 0)) false (c :: cs) =
        cstr (pre ++ zap delim (c :: cs) ++ tail) pre.length ::
          (starts delim false pre.length (c :: cs)).map (cstr (pre ++ zap delim (c :: cs) ++ tail)) := by
      obtain ⟨hopen, hnew⟩ := ih (pre ++ [if c = delim then 0 else c]) hcs
      rw [← hbuf, List.length_append, List.length_singleton] at hopen hnew
      by_cases hd : c = delim
      · have hempty : cstr (pre ++ zap delim (c :: cs) ++ tail) pre.length = [] := by
          simp [cstr, zap, hd]
        rw [fields, if_pos hd, hnew, hempty, starts, decide_eq_true hd]
        rfl
      · have hhead : cstr (pre ++ zap delim (c :: cs) ++ tail) pre.length =
            c :: cstr (pre ++ zap delim (c :: cs) ++ tail) (pre.length + 1) := by
          simp [cstr, zap, hd, hc]
        simp only [fields, if_neg hd, hopen, hhead, starts, decide_eq_false hd, Bool.false_eq_true,
          if_false, List.nil_append]
    refine ⟨hfirst, ?_⟩
    rw [show fields delim (tail.takeWhile (· ≠ 0)) true (c :: cs) =
      fields delim (tail.takeWhile (· ≠ 0)) false (c :: cs) from rfl, hfirst]
    rfl

/-- Every token but the last ends at a delimiter. -/
theorem starts_end (cs : List UInt8) : ∀ pre opre : List UInt8, 0 ∉ cs → opre.length = pre.length →
    (starts delim false pre.length cs ≠ [] →
        (opre ++ cs ++ orig).getD (pre.length + (cstr (pre ++ zap delim cs ++ tail) pre.length).length) 0 =
          delim) ∧
      ∀ f, ∀ q ∈ (starts delim f pre.length cs).dropLast,
        (opre ++ cs ++ orig).getD (q + (cstr (pre ++ zap delim cs ++ tail) q).length) 0 = delim := by
  induction cs with
  | nil => exact fun pre opre _ _ => ⟨fun h => absurd rfl h, fun f q hq => nomatch hq⟩
  | cons c cs ih =>
    intro pre opre hnul hlen
    obtain ⟨hc, hcs⟩ := noNul_cons.mp hnul
    have hbuf : pre ++ zap delim (c :: cs) ++ tail =
        (pre ++ [if c = delim then 0 else c]) ++ zap delim cs ++ tail := by simp [zap]
    have horig : opre ++ c :: cs ++ orig = (opre ++ [c]) ++ cs ++ orig := by simp
    obtain ⟨hopen, hall⟩ := ih (pre ++ [if c = delim then 0 else c]) (opre ++ [c]) hcs (by simp [hlen])
    rw [← hbuf, ← horig, List.length_append, List.length_singleton] at hopen hall
    have hfirst : starts delim (decide (c = delim)) (pre.length + 1) cs ≠ [] →
        (opre ++ c :: cs ++ orig).getD
          (pre.length + (cstr (pre ++ zap delim (c :: cs) ++ tail) pre.length).length) 0 = delim := by
      intro hne
      by_cases hd : c = delim
      · have hempty : cstr (pre ++ zap delim (c :: cs) ++ tail) pre.length = [] := by
          simp [cstr, zap, hd]
        rw [hempty, List.length_nil, Nat.add_zero, ← hlen]
        simp [hd]
      · have hhead : cstr (pre ++ zap delim (c :: cs) ++ tail) pre.length =
            c :: cstr (pre ++ zap delim (c :: cs) ++ tail) (pre.length + 1) := by
          simp [cstr, zap, hd, hc]
        rw [decide_eq_false hd] at hne
        have hnext := hopen hne
        rw [hhead, List.length_cons]
        rwa [Nat.add_right_comm] at hnext
    refine ⟨hfirst, fun f q hq => ?_⟩
    rw [starts] at hq
    cases f with
    | false => exact hall _ q hq
    | true =>
      rw [if_pos rfl, List.singleton_append] at hq
      by_cases hne : starts delim (decide (c = delim)) (pre.length + 1) cs = []
      · rw [hne] at hq
        exact nomatch hq
      · rw [List.dropLast_cons_of_ne_nil hne] at hq
        rcases List.mem_cons.mp hq with rfl | hq
        · exact hfirst hne
        · exact hall _ q hq

end

/-! ## Joining -/

theorem fields_ne_nil (w : List UInt8) {cs : List UInt8} (hne : cs ≠ []) (f : Bool) :
    fields delim w f cs ≠ [] := by
  have hall : ∀ cs, fields delim w false cs ≠ [] := by
    intro cs
    induction cs with
    | nil => exact List.cons_ne_nil _ _
    | cons c cs ih =>
      rw [fields]
      split_ifs
      · exact List.cons_ne_nil _ _
      · cases hf : fields delim w false cs with
        | nil => exact absurd hf ih
        | cons => exact List.cons_ne_nil _ _
  cases cs with
  | nil => exact absurd rfl hne
  | cons c cs => exact hall (c :: cs)

theorem joinTokens_cons {l : List (List UInt8)} (h : l ≠ []) (t : List UInt8) :
    joinTokens delim (t :: l) = t ++ delim :: joinTokens delim l := by
  cases l with
  | nil => exact absurd rfl h
  | cons => rfl

/-- Joining gives back everything in front of the last part. -/
theorem joinTokens_fields (w : List UInt8) {e : List UInt8} (he : e ≠ []) (d : List UInt8) : ∀ f,
    joinTokens delim (fields delim w f (d ++ e)) = d ++ joinTokens delim (fields delim w true e) := by
  induction d with
  | nil =>
    intro f
    cases e with
    | nil => exact absurd rfl he
    | cons => rfl
  | cons a d ih =>
    intro f
    have hne : ∀ f, fields delim w f (d ++ e) ≠ [] :=
      fields_ne_nil w fun h => he (List.append_eq_nil_iff.mp h).2
    rw [List.cons_append, fields]
    split_ifs with ha
    · rw [joinTokens_cons (hne true), ih, ha]
      rfl
    · have hjoin := ih false
      cases hf : fields delim w false (d ++ e) with
      | nil => exact absurd hf (hne false)
      | cons t ts =>
        rw [hf] at hjoin
        rw [List.cons_append, ← hjoin]
        cases ts <;> rfl

/-- The last part is the rest of the string, or nothing where a delimiter was overwritten. -/
theorem joinTokens_last (w d : List UInt8) (c : UInt8) :
    joinTokens delim (fields delim w true (d ++ [c])) = d ++ if c = delim then [] else c :: w := by
  rw [joinTokens_fields w (List.cons_ne_nil c [])]
  by_cases hc : c = delim
  · simp [fields, hc, joinTokens]
  · simp [fields, hc, joinTokens]

/-! ## What is overwritten -/

theorem overwritten_zap (hdelim : delim ≠ 0) (y z : List UInt8) (a : List UInt8) :
    overwritten (a ++ y) (zap delim a ++ (y ++ z)) = a.count delim := by
  induction a with
  | nil =>
    have hsame : ∀ y : List UInt8, overwritten y (y ++ z) = 0 := by
      intro y
      induction y with
      | nil => rfl
      | cons b y ih => simpa [overwritten] using ih
    exact hsame y
  | cons c a ih =>
    rw [List.count_cons, ← ih]
    by_cases hc : c = delim
    · simp [overwritten, zap, hc, hdelim]
    · simp [overwritten, zap, hc]

end

/-! ## Nothing is lost -/

/-- What `rte_strsplit` must do with the string `s`. -/
structure NoLoss (s : List UInt8) (maxtokens : Nat) (delim : UInt8) (r : Split) : Prop where
  count : r.tokens.length ≤ maxtokens
  /-- A final delimiter separates nothing. -/
  splits : overwritten s.dropLast r.string ≤ maxtokens - 1
  ends : ∀ q ∈ r.tokens.dropLast, s.getD (q + (cstr r.string q).length) 0 = delim
  join : joinTokens delim (r.tokens.map (cstr r.string)) = s ∨
    joinTokens delim (r.tokens.map (cstr r.string)) ++ [delim] = s

/-- The last token allowed is empty, and something follows its delimiter. -/
def CutOff (s : List UInt8) (maxtokens : Nat) (delim : UInt8) : Prop :=
  ∃ u v, s = u ++ delim :: v ∧ v ≠ [] ∧ u.count delim + 1 = maxtokens ∧
    (u = [] ∨ u.getLast? = some delim)

section

variable {s rest : List UInt8} {stringlen maxtokens : Nat} {delim : UInt8}

/-- The result, by the prefix that the loop went over. -/
theorem rteStrsplit_eq (hs : 0 ∉ s) (hlen : s.length ≤ stringlen) : ∃ r done todo,
    rteStrsplit (some (s ++ 0 :: rest)) stringlen true maxtokens delim = some r ∧
      s = done ++ todo ∧ stopAt delim maxtokens true s = done.length ∧
      r.string = zap delim done ++ (todo ++ 0 :: rest) ∧ r.tokens = starts delim true 0 done ∧
      (starts delim true 0 done).length ≤ maxtokens := by
  obtain ⟨hstring, htokens⟩ := @splitLoop_eq delim maxtokens rest s [] stringlen maxtokens [] true
    hs hlen (Nat.zero_add maxtokens)
  rw [List.nil_append, List.append_assoc] at hstring
  exact ⟨_, _, _, rfl, (List.take_append_drop _ s).symm,
    (List.length_take_of_le (stopAt_le s maxtokens true)).symm, hstring, htokens,
    starts_stopAt_le s maxtokens true 0⟩

theorem takeWhile_rest {t : List UInt8} (ht : 0 ∉ t) : (t ++ 0 :: rest).takeWhile (· ≠ 0) = t := by
  induction t with
  | nil => rfl
  | cons c t ih =>
    obtain ⟨hc, ht⟩ := noNul_cons.mp ht
    rw [List.cons_append, List.takeWhile_cons_of_pos (by simpa using hc), ih ht]

/-- The empty last token, where the string is cut off, is where the loop stops. -/
theorem stopAt_of_cutOff {u v : List UInt8} (hv : v ≠ []) (hcount : u.count delim + 1 = maxtokens)
    (hu : u = [] ∨ u.getLast? = some delim) :
    stopAt delim maxtokens true (u ++ delim :: v) = u.length + 1 := by
  have hbefore : (starts delim true 0 u).length < maxtokens := by
    rcases hu with rfl | hu
    · simp [starts, ← hcount]
    · obtain ⟨d, rfl⟩ := List.getLast?_eq_some_iff.mp hu
      rw [List.count_append, List.count_singleton_self] at hcount
      rw [starts_length, Bool.toNat_true]
      omega
  have hreach : u.length < stopAt delim maxtokens true (u ++ delim :: v) :=
    (lt_stopAt_iff u maxtokens true 0).mpr hbefore
  obtain ⟨x, v, rfl⟩ := List.exists_cons_of_ne_nil hv
  have hstop : ¬(u ++ [delim]).length < stopAt delim maxtokens true ((u ++ [delim]) ++ x :: v) := by
    rw [lt_stopAt_iff (u ++ [delim]) maxtokens true 0, starts_length, Bool.toNat_true]
    omega
  rw [List.append_assoc, List.singleton_append, List.length_append, List.length_singleton] at hstop
  omega

/-- A prefix that is not everything ends with the start of the last token allowed. -/
theorem stopAt_last (hmax : 1 ≤ maxtokens) {d t : List UInt8} {c : UInt8}
    (hs : s = d ++ [c] ++ t) (hstop : stopAt delim maxtokens true s = (d ++ [c]).length) (ht : t ≠ []) :
    d.count delim + 1 = maxtokens ∧ (d = [] ∨ d.getLast? = some delim) := by
  obtain ⟨x, t, rfl⟩ := List.exists_cons_of_ne_nil ht
  have hfull : ¬(starts delim true 0 (d ++ [c])).length < maxtokens := by
    rw [← @lt_stopAt_iff delim x t (d ++ [c]), ← hs, hstop]
    exact Nat.lt_irrefl _
  have hopen : (starts delim true 0 d).length < maxtokens := by
    rw [← @lt_stopAt_iff delim c (x :: t) d]
    rw [List.append_assoc, List.singleton_append] at hs
    rw [← hs, hstop]
    simp
  rw [starts_length, Bool.toNat_true] at hfull
  rcases List.eq_nil_or_concat d with rfl | ⟨d, y, rfl⟩
  · rw [List.count_nil] at hfull ⊢
    exact ⟨by omega, .inl rfl⟩
  · rw [List.concat_eq_append] at hopen hfull ⊢
    rw [starts_length, Bool.toNat_true] at hopen
    rw [List.count_append, List.count_singleton] at hfull ⊢
    by_cases hy : y = delim
    · refine ⟨?_, .inr (by simp [hy])⟩
      simp only [hy, BEq.rfl, if_true] at hfull ⊢
      omega
    · simp only [beq_eq_false_iff_ne.mpr hy, Bool.false_eq_true, if_false] at hfull
      omega

/-- Something is gone over unless the string is empty. -/
theorem prefix_cases (hmax : 1 ≤ maxtokens) {done todo : List UInt8} (hsplit : s = done ++ todo)
    (hstop : stopAt delim maxtokens true s = done.length) :
    (done = [] ∧ todo = []) ∨ ∃ d c, done = d ++ [c] := by
  rcases List.eq_nil_or_concat done with rfl | ⟨d, c, rfl⟩
  · left
    refine ⟨rfl, ?_⟩
    rw [List.nil_append] at hsplit
    subst hsplit
    cases s with
    | nil => rfl
    | cons c s =>
      have hpos := (@lt_stopAt_iff delim c s [] maxtokens true 0).mpr hmax
      rw [List.nil_append, hstop] at hpos
      exact absurd hpos (Nat.lt_irrefl _)
  · exact .inr ⟨d, c, by rw [List.concat_eq_append]⟩

/-- Where the loop stops early it has just gone over the first character of a last token that is not
empty. -/
theorem last_ne_delim (hmax : 1 ≤ maxtokens) {d todo : List UInt8} {c : UInt8}
    (hsplit : s = d ++ [c] ++ todo) (hstop : stopAt delim maxtokens true s = (d ++ [c]).length)
    (htodo : todo ≠ []) (hcut : ¬CutOff s maxtokens delim) : c ≠ delim ∧ d.count delim + 1 = maxtokens := by
  obtain ⟨hcount, hd⟩ := stopAt_last hmax hsplit hstop htodo
  refine ⟨fun hc => hcut ⟨d, todo, ?_, htodo, hcount, hd⟩, hcount⟩
  rw [hsplit, hc, List.append_assoc, List.singleton_append]

theorem join_fields (hmax : 1 ≤ maxtokens) {done todo : List UInt8} (hsplit : s = done ++ todo)
    (hstop : stopAt delim maxtokens true s = done.length) (hcut : ¬CutOff s maxtokens delim) :
    joinTokens delim (fields delim todo true done) = s ∨
      joinTokens delim (fields delim todo true done) ++ [delim] = s := by
  rcases prefix_cases hmax hsplit hstop with ⟨rfl, rfl⟩ | ⟨d, c, rfl⟩
  · exact .inl hsplit.symm
  rw [joinTokens_last]
  by_cases hc : c = delim
  · have htodo : todo = [] := by
      by_contra hne
      exact (last_ne_delim hmax hsplit hstop hne hcut).1 hc
    right
    rw [if_pos hc, hsplit, htodo, hc, List.append_nil, List.append_nil]
  · left
    rw [if_neg hc, hsplit, List.append_assoc, List.singleton_append]

theorem splits_le (hdelim : delim ≠ 0) (hmax : 1 ≤ maxtokens) {done todo string : List UInt8}
    (hsplit : s = done ++ todo) (hstop : stopAt delim maxtokens true s = done.length)
    (hroom : (starts delim true 0 done).length ≤ maxtokens) (hcut : ¬CutOff s maxtokens delim)
    (hstring : string = zap delim done ++ (todo ++ 0 :: rest)) :
    overwritten s.dropLast string ≤ maxtokens - 1 := by
  rcases prefix_cases hmax hsplit hstop with ⟨rfl, rfl⟩ | ⟨d, c, rfl⟩
  · rw [hsplit]
    exact Nat.zero_le _
  rcases List.eq_nil_or_concat todo with rfl | ⟨t, x, rfl⟩
  · -- only a final delimiter may be one too many
    have hover := overwritten_zap hdelim [] (zap delim [c] ++ ([] ++ 0 :: rest)) d
    rw [starts_length, Bool.toNat_true] at hroom
    rw [List.append_nil, List.nil_append] at hover
    rw [hsplit, List.append_nil, List.dropLast_concat, hstring, zap, List.map_append, List.append_assoc]
    change overwritten d (zap delim d ++ (zap delim [c] ++ ([] ++ 0 :: rest))) ≤ _
    omega
  · rw [List.concat_eq_append] at hsplit hstring
    obtain ⟨hc, hcount⟩ := last_ne_delim hmax hsplit hstop (by simp) hcut
    have hover := overwritten_zap hdelim t ([x] ++ 0 :: rest) (d ++ [c])
    rw [List.count_append, List.count_singleton, if_neg (by simpa using hc)] at hover
    rw [hsplit, ← List.append_assoc, List.dropLast_concat, hstring, List.append_assoc t, hover]
    omega

variable (hs : 0 ∉ s) (hlen : s.length ≤ stringlen) (hdelim : delim ≠ 0) (hmax : 1 ≤ maxtokens)

include hs hlen hdelim hmax

/-- **`rte_strsplit`** loses nothing exactly when the last token allowed is not an empty one with
something behind its delimiter. -/
theorem strsplit_noLoss_iff :
    (∃ r, rteStrsplit (some (s ++ 0 :: rest)) stringlen true maxtokens delim = some r ∧
      NoLoss s maxtokens delim r) ↔ ¬CutOff s maxtokens delim := by
  obtain ⟨⟨string, tokens, flag⟩, done, todo, hr, hsplit, hstop, hstring, htokens, hroom⟩ :=
    @rteStrsplit_eq s rest stringlen maxtokens delim hs hlen
  simp only at hstring htokens
  rw [hr]
  simp only [Option.some_inj, exists_eq_left']
  have hdone0 : 0 ∉ done := fun h => hs (hsplit ▸ List.mem_append_left todo h)
  have htodo0 : 0 ∉ todo := fun h => hs (hsplit ▸ List.mem_append_right done h)
  -- the tokens are the fields of the prefix, the last one continued
  have htok : tokens.map (cstr string) = fields delim todo true done := by
    have hfields := (@fields_eq delim (todo ++ 0 :: rest) done [] hdone0).2
    rw [takeWhile_rest htodo0, List.nil_append, ← hstring] at hfields
    rw [hfields, htokens]
    rfl
  constructor
  · rintro hloss ⟨u, v, hcut, hv, hcount, hu⟩
    have hprefix : done = u ++ [delim] := by
      have hlength : done.length = (u ++ [delim]).length := by
        rw [← hstop, hcut, stopAt_of_cutOff hv hcount hu]
        simp
      have hboth : done ++ todo = (u ++ [delim]) ++ v := by
        rw [← hsplit, hcut]
        simp
      exact (List.append_inj hboth hlength).1
    have hjoin := hloss.join
    have hlt : u.length + 1 < s.length := by
      have hpos := List.length_pos_iff.mpr hv
      rw [hcut, List.length_append, List.length_cons]
      omega
    rw [htok, hprefix, joinTokens_last, if_pos rfl, List.append_nil] at hjoin
    rcases hjoin with h | h <;> rw [← h] at hlt
    · omega
    · rw [List.length_append, List.length_singleton] at hlt
      omega
  · intro hcut
    have hends : ∀ q ∈ tokens.dropLast, s.getD (q + (cstr string q).length) 0 = delim := by
      have h := (@starts_end delim (todo ++ 0 :: rest) todo done [] [] hdone0 rfl).2 true
      rw [List.nil_append, List.nil_append, ← hstring, ← hsplit] at h
      rw [htokens]
      exact h
    refine ⟨by rw [htokens]; exact hroom, ?_, hends, ?_⟩
    · exact splits_le hdelim hmax hsplit hstop hroom hcut hstring
    · rw [htok]
      exact join_fields hmax hsplit hstop hcut

end

/-- `"a,b,c"` in two tokens -/
theorem strsplit_noLoss_iff_abc :
    (∃ r, rteStrsplit (some ([97, 44, 98, 44, 99] ++ 0 :: [])) 8 true 2 44 = some r ∧
      NoLoss [97, 44, 98, 44, 99] 2 44 r) ↔ ¬CutOff [97, 44, 98, 44, 99] 2 44 :=
  strsplit_noLoss_iff (by decide) (by decide) (by decide) (by decide)

/-- `"a,,b"` in two tokens is `"a"` and `""`. -/
theorem not_strsplit_noLoss :
    ¬∃ r, rteStrsplit (some ([97, 44, 44, 98] ++ 0 :: [])) 5 true 2 44 = some r ∧
      NoLoss [97, 44, 44, 98] 2 44 r := by
  rintro ⟨r, hr, hloss⟩
  have hsplit : rteStrsplit (some ([97, 44, 44, 98] ++ 0 :: [])) 5 true 2 44 =
      some ⟨[97, 0, 0, 98, 0], [0, 2], true⟩ := by decide
  rw [hsplit] at hr
  cases hr
  exact absurd hloss.join (by decide)

end EalString
