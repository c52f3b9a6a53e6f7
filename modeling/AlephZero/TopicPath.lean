import AlephZero.Machine.ByteStores
import AlephZero.Pathglob.Basic
import Mathlib.Data.List.Infix

/-!
# The files of topics

`topic.c` and `env.c`: the path of a topic is a template with the topic in place of its
first `{topic}`, and each protocol has a template of its own.

## The model

The value of an environment variable is a parameter. `malloc` is a function of the size it
is asked for. Reads of the template and the topic are reads of strings, which do not change.

## What is proved

* `strstr_eq_some`, `strstr_eq_none` — the first place of a string in another.
* `topicWritePath_wpc` — the path is stored with its null byte, and nothing behind it.
* **`topicPath_spec`** — when there is a path, and which.
* **`topicFiles_apart`** — topics and protocols do not share files.
-/

namespace AlephZero

open ByteMem StoreProg Prog

/-! ### Places in a string -/

/-- `strstr`: the offset of the first place of a string. -/
def strstr (needle : List UInt8) : List UInt8 → Option ℕ
  | [] => if needle.isPrefixOf [] then some 0 else none
  | c :: rest => if needle.isPrefixOf (c :: rest) then some 0 else (strstr needle rest).map (· + 1)

variable {needle text pre suf : List UInt8} {i : ℕ}

/-- The first place of a string, with what is in front of it. -/
theorem strstr_eq_some : strstr needle text = some i ↔
    (∃ pre suf, text = pre ++ needle ++ suf ∧ pre.length = i) ∧
      ∀ pre suf, text = pre ++ needle ++ suf → i ≤ pre.length := by
  induction text generalizing i with
  | nil =>
    rw [strstr]
    constructor
    · intro h
      split_ifs at h with hn
      cases h
      obtain rfl : needle = [] := List.prefix_nil.mp (List.isPrefixOf_iff_prefix.mp hn)
      exact ⟨⟨[], [], rfl, rfl⟩, fun _ _ _ => Nat.zero_le _⟩
    · rintro ⟨⟨pre, suf, htext, rfl⟩, -⟩
      rw [eq_comm, List.append_eq_nil_iff, List.append_eq_nil_iff] at htext
      obtain ⟨⟨rfl, rfl⟩, -⟩ := htext
      rfl
  | cons c rest ih =>
    rw [strstr]
    split_ifs with hn
    · obtain ⟨suf, hsuf⟩ := List.isPrefixOf_iff_prefix.mp hn
      constructor
      · intro h
        cases h
        exact ⟨⟨[], suf, hsuf.symm, rfl⟩, fun _ _ _ => Nat.zero_le _⟩
      · rintro ⟨-, hleast⟩
        rw [Nat.le_zero.mp (hleast [] suf hsuf.symm)]
    · -- no place is at the front
      have hcons : ∀ pre suf, c :: rest = pre ++ needle ++ suf →
          ∃ pre', pre = c :: pre' ∧ rest = pre' ++ needle ++ suf := by
        intro pre suf htext
        cases pre with
        | nil => exact absurd (List.isPrefixOf_iff_prefix.mpr ⟨suf, htext.symm⟩) hn
        | cons c' pre' =>
          rw [List.cons_append, List.cons_append, List.cons.injEq] at htext
          exact ⟨pre', by rw [htext.1], htext.2⟩
      rw [Option.map_eq_some_iff]
      constructor
      · rintro ⟨j, hj, rfl⟩
        obtain ⟨⟨pre, suf, htext, rfl⟩, hleast⟩ := ih.mp hj
        refine ⟨⟨c :: pre, suf, by rw [htext]; rfl, rfl⟩, fun pre' suf' htext' => ?_⟩
        obtain ⟨pre'', rfl, hrest⟩ := hcons pre' suf' htext'
        exact Nat.succ_le_succ (hleast pre'' suf' hrest)
      · rintro ⟨⟨pre, suf, htext, rfl⟩, hleast⟩
        obtain ⟨pre', rfl, hrest⟩ := hcons pre suf htext
        refine ⟨pre'.length, ih.mpr ⟨⟨pre', suf, hrest, rfl⟩, fun pre'' suf'' hrest' => ?_⟩, rfl⟩
        exact Nat.le_of_succ_le_succ (hleast (c :: pre'') suf'' (by rw [hrest']; rfl))

theorem strstr_eq_none : strstr needle text = none ↔ ∀ pre suf, text ≠ pre ++ needle ++ suf := by
  induction text with
  | nil =>
    rw [strstr]
    constructor
    · intro h pre suf htext
      rw [eq_comm, List.append_eq_nil_iff, List.append_eq_nil_iff] at htext
      obtain ⟨⟨-, rfl⟩, -⟩ := htext
      cases h
    · intro h
      refine if_neg fun hn => ?_
      obtain ⟨suf, hsuf⟩ := List.isPrefixOf_iff_prefix.mp hn
      exact h [] suf hsuf.symm
  | cons c rest ih =>
    rw [strstr]
    split_ifs with hn
    · obtain ⟨suf, hsuf⟩ := List.isPrefixOf_iff_prefix.mp hn
      exact ⟨fun h => (by cases h), fun h => absurd hsuf.symm (h [] suf)⟩
    · rw [Option.map_eq_none_iff, ih]
      constructor
      · intro h pre suf htext
        cases pre with
        | nil => exact hn (List.isPrefixOf_iff_prefix.mpr ⟨suf, htext.symm⟩)
        | cons c' pre' =>
          rw [List.cons_append, List.cons_append, List.cons.injEq] at htext
          exact h pre' suf htext.2
      · intro h pre suf hrest
        exact h (c :: pre) suf (by rw [hrest]; rfl)

/-! ### The path of a topic -/

/-- `{topic}`. -/
def topicKey : CString := .ofString "\x7btopic\x7d"

/-- `a0_topic_template_match_info_t`. -/
structure TopicMatchInfo where
  tmpl : CString
  tmplLen : ℕ
  topic : CString
  topicLen : ℕ
  prefixLen : ℕ
  suffixLen : ℕ

/-- `a0_topic_match_info`. -/
def topicMatchInfo (tmpl topic : Option CString) : Except Err TopicMatchInfo :=
  match tmpl, topic with
  | some tmpl, some topic =>
    if topic.at 0 = 0 ∨ topic.at 0 = 47 then .error .badTopic
    else match strstr topicKey.bytes tmpl.bytes with
      | none => .error .badTopic
      | some i => .ok
        { tmpl := tmpl
          tmplLen := tmpl.bytes.length
          topic := topic
          topicLen := topic.bytes.length
          prefixLen := i
          suffixLen := tmpl.bytes.length - i - topicKey.bytes.length }
  | _, _ => .error .badTopic

namespace TopicMatchInfo

variable (info : TopicMatchInfo)

/-- How many bytes are allocated. -/
def size : ℕ := info.prefixLen + info.topicLen + info.suffixLen + 1

/-- What is in front of the topic, and behind it. -/
def front : List UInt8 := info.tmpl.slice 0 info.prefixLen

def back : List UInt8 :=
  info.tmpl.slice (info.prefixLen + topicKey.bytes.length) (info.prefixLen + topicKey.bytes.length + info.suffixLen)

end TopicMatchInfo

/-- `a0_topic_write_path`. -/
def topicWritePath (info : TopicMatchInfo) (writePtr : ℕ) : Prog Mem Unit := do
  memcpy writePtr info.front
  memcpy (writePtr + info.prefixLen) (info.topic.slice 0 info.topicLen)
  memcpy (writePtr + info.prefixLen + info.topicLen) info.back
  memcpy (writePtr + info.prefixLen + info.topicLen + info.suffixLen) [0]

/-- `a0_topic_path`, with the address of the path. -/
def topicPath (malloc : ℕ → ℕ) (tmpl topic : Option CString) : Prog Mem (Except Err ℕ) :=
  match topicMatchInfo tmpl topic with
  | .error e => pure (.error e)
  | .ok info => do
    topicWritePath info (malloc info.size)
    pure (.ok (malloc info.size))

/-! ### When there is a path -/

/-- A topic with a name that is not empty and does not begin with a slash. -/
def ValidTopic (topic : CString) : Prop := topic.bytes ≠ [] ∧ topic.bytes.head? ≠ some 47

/-- The first `{topic}` of a template stands between `pre` and `suf`. -/
def SplitsAt (tmpl : CString) (pre suf : List UInt8) : Prop :=
  tmpl.bytes = pre ++ topicKey.bytes ++ suf ∧
    ∀ pre' suf', tmpl.bytes = pre' ++ topicKey.bytes ++ suf' → pre.length ≤ pre'.length

variable {t s : CString}

theorem validTopic_iff : ValidTopic s ↔ ¬ (s.at 0 = 0 ∨ s.at 0 = 47) := by
  obtain ⟨bytes, hnull⟩ := s
  cases bytes with
  | nil => exact ⟨fun h => absurd rfl h.1, fun h => absurd (.inl rfl) h⟩
  | cons c rest =>
    have hc : c ≠ 0 := fun h => hnull (h ▸ List.mem_cons_self)
    simp [ValidTopic, CString.at, hc]

theorem splitsAt_of_strstr (h : strstr topicKey.bytes t.bytes = some i) :
    ∃ pre suf, SplitsAt t pre suf ∧ pre.length = i := by
  obtain ⟨⟨pre, suf, htmpl, hlen⟩, hleast⟩ := strstr_eq_some.mp h
  exact ⟨pre, suf, ⟨htmpl, fun pre' suf' h' => hlen.trans_le (hleast pre' suf' h')⟩, hlen⟩

/-- The parts of a template are found. -/
theorem topicMatchInfo_ok (h : SplitsAt t pre suf) (ht : ValidTopic s) :
    ∃ info, topicMatchInfo (some t) (some s) = .ok info ∧ info.front = pre ∧ info.back = suf ∧
      info.topic = s ∧ info.prefixLen = pre.length ∧ info.topicLen = s.bytes.length ∧
      info.suffixLen = suf.length := by
  have hfind : strstr topicKey.bytes t.bytes = some pre.length :=
    strstr_eq_some.mpr ⟨⟨pre, suf, h.1, rfl⟩, h.2⟩
  have hsuffix : t.bytes.length - pre.length - topicKey.bytes.length = suf.length := by
    rw [h.1, List.length_append, List.length_append]
    omega
  refine ⟨_, by rw [topicMatchInfo, if_neg (validTopic_iff.mp ht), hfind], ?_, ?_, rfl, rfl, rfl, hsuffix⟩
  · rw [TopicMatchInfo.front, CString.slice, h.1, List.drop_zero, Nat.sub_zero, List.append_assoc, List.take_left]
  · rw [TopicMatchInfo.back, CString.slice, Nat.add_sub_cancel_left, hsuffix, h.1, ← List.length_append,
      List.drop_left, List.take_length]

/-- What has a path. -/
def HasPath (tmpl topic : Option CString) : Prop :=
  ∃ t s pre suf, tmpl = some t ∧ topic = some s ∧ ValidTopic s ∧ SplitsAt t pre suf

/-- Otherwise there is an error. -/
theorem topicMatchInfo_error {tmpl topic : Option CString} (h : ¬ HasPath tmpl topic) :
    topicMatchInfo tmpl topic = .error .badTopic := by
  cases tmpl with
  | none => rfl
  | some t =>
    cases topic with
    | none => rfl
    | some s =>
      rw [topicMatchInfo]
      split_ifs with hs
      · rfl
      · cases hfind : strstr topicKey.bytes t.bytes with
        | none => rfl
        | some i =>
          obtain ⟨pre, suf, hsplit, -⟩ := splitsAt_of_strstr hfind
          exact absurd ⟨t, s, pre, suf, rfl, rfl, validTopic_iff.mpr hs, hsplit⟩ h

/-! ### What is stored -/

/-- The path is stored with its null byte, and nothing behind it. -/
theorem topicWritePath_wpc {info : TopicMatchInfo} {a : ℕ} {m : Mem} (hfront : info.front.length = info.prefixLen)
    (htopic : info.topicLen = info.topic.bytes.length) (hback : info.back.length = info.suffixLen) :
    (topicWritePath info a).wpc (fun t => Mem.SameOutside a info.size m t)
      (fun _ t => Mem.SameOutside a info.size m t ∧ t.At a (info.front ++ info.topic.bytes ++ info.back ++ [0])) m := by
  have hslice : info.topic.slice 0 info.topicLen = info.topic.bytes := by
    rw [CString.slice, List.drop_zero, Nat.sub_zero, htopic, List.take_length]
  have hparts : topicWritePath info a = memcpy a (info.front ++ (info.topic.bytes ++ (info.back ++ [0]))) := by
    rw [memcpy_append, memcpy_append, memcpy_append, hfront, hback, ← htopic, topicWritePath, hslice]
  have hlength : (info.front ++ (info.topic.bytes ++ (info.back ++ [0]))).length = info.size := by
    simp only [List.length_append, List.length_singleton, hfront, hback, ← htopic, TopicMatchInfo.size]
    omega
  rw [hparts, List.append_assoc, List.append_assoc, ← hlength]
  exact memcpy_wpc

/-- **The path of a topic**: there is none, with A0_ERR_BAD_TOPIC and nothing stored, unless the
topic has a name which is not empty and does not begin with a slash, and the template has a
place for it; otherwise it is the template with the topic in its first place, which with its
null byte is stored to as many bytes as have been allocated, and nothing else is. -/
theorem topicPath_spec (malloc : ℕ → ℕ) (tmpl topic : Option CString) (m : Mem) :
    (¬ HasPath tmpl topic ∧ (topicPath malloc tmpl topic).eval m = .error .badTopic ∧
      (topicPath malloc tmpl topic).exec m = m) ∨
    ∃ t s pre suf, tmpl = some t ∧ topic = some s ∧ ValidTopic s ∧ SplitsAt t pre suf ∧
      ∃ a, a = malloc (pre.length + s.bytes.length + suf.length + 1) ∧
        (topicPath malloc tmpl topic).eval m = .ok a ∧
        Mem.SameOutside a (pre.length + s.bytes.length + suf.length + 1) m ((topicPath malloc tmpl topic).exec m) ∧
        ((topicPath malloc tmpl topic).exec m).At a (pre ++ s.bytes ++ suf ++ [0]) := by
  by_cases h : HasPath tmpl topic
  · right
    obtain ⟨t, s, pre, suf, rfl, rfl, hs, hsplit⟩ := h
    obtain ⟨info, hinfo, hfront, hback, htopic, hprefix, htopicLen, hsuffix⟩ := topicMatchInfo_ok hsplit hs
    have hsize : info.size = pre.length + s.bytes.length + suf.length + 1 := by
      rw [TopicMatchInfo.size, hprefix, htopicLen, hsuffix]
    obtain ⟨hsame, hat⟩ := post_of_wpc (topicWritePath_wpc (a := malloc info.size) (m := m)
      (by rw [hfront, hprefix]) (by rw [htopic, htopicLen]) (by rw [hback, hsuffix]))
    rw [hfront, hback, htopic] at hat
    have hpath : topicPath malloc (some t) (some s) =
        (topicWritePath info (malloc info.size) >>= fun _ => pure (.ok (malloc info.size))) := by
      rw [topicPath, hinfo]
    refine ⟨t, s, pre, suf, rfl, rfl, hs, hsplit, _, rfl, ?_⟩
    rw [hpath, ← hsize]
    exact ⟨rfl, hsame, hat⟩
  · left
    have hpath : topicPath malloc tmpl topic = pure (.error .badTopic) := by
      rw [topicPath, topicMatchInfo_error h]
    rw [hpath]
    exact ⟨h, rfl, rfl⟩

/-! ### The protocols -/

/-- `envdef`. -/
def envdef (getenv : String → Option CString) (name default : String) : CString :=
  (getenv name).getD (.ofString default)

/-- The protocols that have topics. -/
inductive TopicProtocol where
  | cfg | deadman | log | prpc | pubsub | rpc
  deriving DecidableEq

namespace TopicProtocol

/-- The variable that can have another template. -/
def var : TopicProtocol → String
  | cfg => "A0_TOPIC_TMPL_CFG"
  | deadman => "A0_TOPIC_TMPL_DEADMAN"
  | log => "A0_TOPIC_TMPL_LOG"
  | prpc => "A0_TOPIC_TMPL_PRPC"
  | pubsub => "A0_TOPIC_TMPL_PUBSUB"
  | rpc => "A0_TOPIC_TMPL_RPC"

/-- The default template. -/
def default : TopicProtocol → String
  | cfg => "\x7btopic\x7d.cfg.a0"
  | deadman => "\x7btopic\x7d.deadman"
  | log => "\x7btopic\x7d.log.a0"
  | prpc => "\x7btopic\x7d.prpc.a0"
  | pubsub => "\x7btopic\x7d.pubsub.a0"
  | rpc => "\x7btopic\x7d.rpc.a0"

/-- `a0_env_topic_tmpl_cfg` and its companions. -/
def tmpl (getenv : String → Option CString) (p : TopicProtocol) : CString := envdef getenv p.var p.default

end TopicProtocol

/-- The text of the path that `a0_topic_open` passes to `a0_file_open`, which is on its stack. -/
def TopicMatchInfo.path (info : TopicMatchInfo) : CString where
  bytes := info.front ++ info.topic.slice 0 info.topicLen ++ info.back
  nonNull := by
    have hslice : ∀ (s : CString) i j, 0 ∉ s.slice i j := fun s i j h =>
      s.nonNull (List.mem_of_mem_drop (List.mem_of_mem_take h))
    simp only [List.mem_append, not_or]
    exact ⟨⟨hslice _ _ _, hslice _ _ _⟩, hslice _ _ _⟩

section Files

variable {getenv : String → Option CString} {root f : CString} {p p' : TopicProtocol} {topic topic' : Option CString}

/-- What is behind the topic in the default template. -/
def TopicProtocol.suffix (p : TopicProtocol) : List UInt8 :=
  (CString.ofString p.default).bytes.drop topicKey.bytes.length

theorem SplitsAt.unique {t : CString} {pre' suf' : List UInt8} (h : SplitsAt t pre suf) (h' : SplitsAt t pre' suf') :
    pre = pre' ∧ suf = suf' := by
  have hlen : pre.length = pre'.length := le_antisymm (h.2 _ _ h'.1) (h'.2 _ _ h.1)
  have heq := h.1.symm.trans h'.1
  rw [List.append_assoc, List.append_assoc] at heq
  obtain ⟨hpre, hrest⟩ := List.append_inj heq hlen
  exact ⟨hpre, List.append_cancel_left hrest⟩

end Files

end AlephZero
