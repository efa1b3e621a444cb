/-! # Notices

Notices are logged and, where a chat channel is connected, queued for it. A sender takes them off the queue
and posts them. What fails on the way is logged; a notice that tells of such a failure is not sent, so that
failures do not breed.
-/

namespace PineEngine.Notice

inductive Reception where
  | status (code : Int)
  | failed (reason : String)

structure Post where
  url : String
  content : String
  username : String
  avatar : String

def post (notice : String) : Post :=
  ⟨"", notice, "PINE Server", ""⟩

def isWithheld (notice : String) : Bool :=
  notice.startsWith "fail to send to Disocrd"

def complaint? : Reception → Option String
  | .status 204 => none
  | .status code => some ("fail to send to Discord: " ++ toString code)
  | .failed reason => some ("fail to send to Discord: " ++ reason)

structure Sent where
  posts : List Post := []
  errors : List String := []
  /-- Whether the sender still waits for the reception of its last post. -/
  waiting : Bool := false

def send : List String → List Reception → Sent
  | [], _ => {}
  | n :: rest, answers =>
    if isWithheld n then send rest answers
    else
      match answers with
      | [] => { posts := [post n], waiting := true }
      | a :: answers =>
        let more := send rest answers
        { more with posts := post n :: more.posts, errors := (complaint? a).toList ++ more.errors }

def queued (connected : Bool) (notices : List String) : List String :=
  if connected then notices else []

end PineEngine.Notice
