import Apple.CF.ArrayDequeRun
import Apple.CF.BigNumber
import Apple.CF.BinaryHeapRun
import Apple.CF.BinaryPListRoundTrip
import Apple.CF.BitVectorRun
import Apple.CF.Gregorian
import Apple.CF.Storage
import Apple.CF.Utf8Convert
import Apple.Dispatch.AllocatorRun
import Apple.Dispatch.Apply
import Apple.Dispatch.BaseDecodeRegions
import Apple.Dispatch.DataObjectSpec
import Apple.Dispatch.GroupNotify
import Apple.Dispatch.Once
import Apple.Dispatch.QueueWidth
import Apple.Dispatch.Semaphore
import Apple.Dispatch.TimerHeapRun
import Apple.Dispatch.UtfTransforms
import Apple.Malloc.BitArrayRun
import Apple.Objc.AutoreleasePoolRun
import Apple.Objc.Layout
import Apple.Objc.LoadMethods
import Apple.Objc.MethodCacheRun
import Apple.Objc.MethodDispatchRun
import Apple.Objc.RefcountPinned
import Apple.Objc.WeakLeftover
import Apple.Objc.WeakVariableRun
