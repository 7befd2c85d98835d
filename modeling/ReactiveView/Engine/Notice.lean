/-!
# Notices

What the engine notes while it works, each with a level and a fixed text.
-/

namespace ReactiveView

inductive Notice where
  | trackedRead
  | subscriberRegistered
  | deadSubscriber
  | notified
  | propertyConverted
  | propertyDefined
  | watchCreated
  | viewCreated
  | passStarted
  | interpolationBound
  | eventBound
  | eventUnbound
  | directiveUnknown
  | modelWriteSkipped
  deriving DecidableEq

inductive Level where
  | trace
  | debug
  deriving DecidableEq

namespace Notice

def level : Notice → Level
  | .watchCreated | .viewCreated | .passStarted | .eventUnbound | .directiveUnknown
  | .modelWriteSkipped => .debug
  | _ => .trace

def message : Notice → String
  | .trackedRead => "tracked read"
  | .subscriberRegistered => "subscriber registered"
  | .deadSubscriber => "ignoring dead subscriber"
  | .notified => "notify"
  | .propertyConverted => "property converted"
  | .propertyDefined => "property defined"
  | .watchCreated => "watcher created"
  | .viewCreated => "instance created"
  | .passStarted => "compile pass"
  | .interpolationBound => "interpolation bound"
  | .eventBound => "event bound"
  | .eventUnbound => "event bound to undefined method"
  | .directiveUnknown => "unknown directive ignored"
  | .modelWriteSkipped => "model write skipped"

end Notice

end ReactiveView
