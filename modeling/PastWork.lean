import PastWork.Scheduler.Uniprogram
import PastWork.Scheduler.Shortest
import PastWork.Scheduler.Releasing
import PastWork.Scheduler.Serving
import PastWork.Scheduler.Fairness
import PastWork.Scheduler.Supply
import PastWork.Scheduler.Pacing
import PastWork.Scheduler.Input
import PastWork.Shell.Numbering
import PastWork.Shell.Bindings
import PastWork.Shell.Reaping
import PastWork.Shell.Resuming
import PastWork.Shell.Announcing
import PastWork.Shell.Printing
import PastWork.Shell.Waking
import PastWork.Shell.Diagram
import PastWork.Shell.Listing
import PastWork.Library.Recency
import PastWork.Proxy.Transparency
import PastWork.Proxy.Recent
import PastWork.Proxy.Progress
import PastWork.Proxy.Races
import PastWork.Proxy.Bounds
import PastWork.Campus.Overlap
import PastWork.Campus.Emergency
import PastWork.Campus.Dashboard
import PastWork.Campus.Viewing
import PastWork.Filesystem.Session
import PastWork.Filesystem.Upkeep
import PastWork.Filesystem.Removing
import PastWork.Filesystem.Missing
import PastWork.Filesystem.Climbing
import PastWork.Kmlab.Reading
import PastWork.Kmlab.Unloading
import PastWork.Kmlab.Userapp
import PastWork.Shell.CommandLine
import PastWork.Tiny.Proxied
